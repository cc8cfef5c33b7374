/-
# Contexts are handed over safely

The invariant of `Handover` and its proof. Who holds the lock can be read off
the CPUs' program counters (`LockOk`), so that a writer is alone (`others_running`)
and a free lock means that every CPU is outside the scheduler (`all_running`).
Outside the scheduler a CPU runs the task chosen for it, unless CPU 0 is in
the middle of a tick and has not come to it yet (`Inv.settled`); a task that is
still in the registers of a CPU that has to give it up is flagged
`await_save` (`Inv.flags`). So when a CPU finds the flag of its next task
down, that task is in no other CPU's registers (`not_live_elsewhere`).

Key definitions: `LockOk`, `Local`, `Inv`, `Safe`.
Key theorems: `inv_step`, `handover_safe`.
-/
import WingOS.Handover
import WingOS.Lib.Run

namespace WingOS
namespace Handover

open Function (update)
open Scheduler Finset Machine

/-! ### What a program counter says -/

/-- The read acquires the CPU has not released or handed over. -/
def Pc.reads : Pc → ℕ
  | .tickFlag _ | .tickSend _ | .save | .select | .wait _ | .load _ | .setCurrent _
  | .readRelease => 1
  | .tickTrigger _ => 2
  | _ => 0

def Pc.writes : Pc → ℕ
  | .tickReschedule | .tickDowngrade | .softSave | .softReschedule | .softSelect | .softLoad _
  | .softSetCurrent _ | .writeRelease | .add _ => 1
  | _ => 0

/-- The task in the registers of a CPU whose current task is `t`. -/
def Pc.holds (t : TaskPtr) : Pc → Option TaskPtr
  | .select | .wait _ | .load _ | .softReschedule | .softSelect | .softLoad _ => none
  | .setCurrent x | .softSetCurrent x => some x
  | _ => some t

/-- The task the CPU has selected. -/
def Pc.target : Pc → Option TaskPtr
  | .wait t | .load t | .setCurrent t | .softLoad t | .softSetCurrent t => some t
  | _ => none

/-- The task of the CPU is the one chosen for it. -/
def Pc.settled : Pc → Bool
  | .running | .tickReschedule | .readRelease | .softSave | .softReschedule | .writeRelease
  | .add _ => true
  | _ => false

def Pc.isTick : Pc → Bool
  | .tickReschedule | .tickDowngrade | .tickFlag _ | .tickSend _ | .tickTrigger _ => true
  | _ => false

/-- The first CPU the tick has not come to in its second loop. -/
def Pc.frontier : Pc → Option ℕ
  | .tickDowngrade | .tickFlag _ => some 1
  | .tickSend i | .tickTrigger i => some i
  | _ => none

/-- The tick has not flagged the task of CPU `d` yet. -/
def Pc.unflagged (d : ℕ) : Pc → Prop
  | .tickDowngrade => True
  | .tickFlag i => i ≤ d
  | _ => False

/-- The read acquires made for the CPU: by itself, or by CPU 0 with the
interrupt it sent. -/
def CpuState.reads (k : CpuState) : ℕ := k.pc.reads + if k.ipi then 1 else 0

/-- CPU 0 is in a tick and has not come to CPU `d` yet. -/
def Unvisited (m : Machine) (d : ℕ) : Prop := ∃ k, (m.pc 0).frontier = some k ∧ k ≤ d

/-! ### The invariant -/

/-- The counters are the sum of what the CPUs hold, and a writer is alone. -/
structure LockOk (m : Machine) : Prop where
  readers : m.lock.readers = (∑ c ∈ range m.n, (m.cpu c).reads : ℕ)
  writers : m.lock.writers = (∑ c ∈ range m.n, (m.pc c).writes : ℕ)
  waiters : m.lock.waiters = 0
  excl : m.lock.writers = 0 ∨ m.lock.writers = 1 ∧ m.lock.readers = 0

/-- The scheduler's own state. The tasks under way in a `task_run` are not in
it yet. -/
structure SchedOk (m : Machine) : Prop where
  good : Good (m.launched \ m.pending) m.sched
  aff : AffOk m.sched
  inj : ∀ c < m.n, ∀ d < m.n, m.sched.schedulerIdles c = m.sched.schedulerIdles d → c = d
  idle : ∀ c < m.n, m.sched.schedulerIdles c ≠ nullptr
  sub : m.pending ⊆ m.launched
  pend : ∀ t ∈ m.pending, t ≠ nullptr ∧ (m.sched.sched t).isIdle = false ∧
    ∀ c < m.n, m.sched.schedulerIdles c ≠ t

/-- What holds of CPU `c` alone. -/
structure Local (m : Machine) (c : ℕ) : Prop where
  live : (m.cpu c).live = (m.pc c).holds (m.cpu c).current
  running : m.sched.cpuRunning c = (m.cpu c).current
  ptr : (m.cpu c).current ≠ nullptr
  target : ∀ t, (m.pc c).target = some t → m.next c = t
  tick : (m.pc c).isTick = true → c = 0
  ipi : (m.cpu c).ipi = true → m.pc c = .running ∧ c ≠ 0
  front : ∀ k, (m.pc c).frontier = some k → 1 ≤ k
  trigger : ∀ i, m.pc c = .tickTrigger i → i < m.n
  add : ∀ t, m.pc c = .add t → t ∈ m.pending

/-- What holds between the CPUs. -/
structure Flow (m : Machine) : Prop where
  loc : ∀ c < m.n, Local m c
  settled : ∀ c < m.n, (m.pc c).settled = true → (m.cpu c).ipi = false →
    m.next c = (m.cpu c).current ∨ Unvisited m c
  unvisited : ∀ c < m.n, Unvisited m c → m.pc c = .running ∧ (m.cpu c).ipi = false
  uniq : ∀ c < m.n, ∀ d < m.n, ∀ t, (m.cpu c).live = some t → (m.cpu d).live = some t → c = d
  ready : ∀ c < m.n, ∀ t, m.pc c = .load t → ∀ d < m.n, d ≠ c → (m.cpu d).live ≠ some t
  flags : ∀ d < m.n, ∀ t, (m.cpu d).live = some t → m.next d ≠ t →
    (m.pc 0).unflagged d ∨ m.awaitSave t = true

structure Inv (m : Machine) : Prop extends Flow m where
  alive : m.panicked = false
  sched : SchedOk m
  lock : LockOk m

/-! ### Reading the lock -/

/-- A CPU that holds nothing is outside the scheduler. -/
theorem Pc.eq_running {p : Pc} (hr : p.reads = 0) (hw : p.writes = 0) : p = .running := by
  cases p <;> simp [Pc.reads, Pc.writes] at hr hw ⊢

theorem CpuState.idle_of_reads {k : CpuState} (hr : k.reads = 0) (hw : k.pc.writes = 0) :
    k.pc = .running ∧ k.ipi = false := by
  unfold CpuState.reads at hr
  cases hi : k.ipi with
  | false => exact ⟨Pc.eq_running (by omega) hw, rfl⟩
  | true => simp [hi] at hr

theorem LockOk.reads_zero {m : Machine} (h : LockOk m) (hr : m.lock.readers = 0) {c : ℕ}
    (hc : c < m.n) : (m.cpu c).reads = 0 := by
  have h1 := h.readers
  have h2 : (m.cpu c).reads ≤ ∑ d ∈ range m.n, (m.cpu d).reads :=
    Finset.single_le_sum (f := fun d => (m.cpu d).reads) (fun _ _ => Nat.zero_le _) (mem_range.mpr hc)
  omega

/-- While the lock is free every CPU is outside the scheduler. -/
theorem LockOk.all_running {m : Machine} (h : LockOk m) (hf : m.lock.free = true) {c : ℕ}
    (hc : c < m.n) : m.pc c = .running ∧ (m.cpu c).ipi = false := by
  simp only [RWLock.free, Bool.decide_and, Bool.and_eq_true, decide_eq_true_eq] at hf
  have h1 := h.writers
  have h2 : (m.pc c).writes ≤ ∑ d ∈ range m.n, (m.pc d).writes :=
    Finset.single_le_sum (f := fun d => (m.pc d).writes) (fun _ _ => Nat.zero_le _) (mem_range.mpr hc)
  have h3 : (m.pc c).writes = 0 := by omega
  exact CpuState.idle_of_reads (h.reads_zero hf.1 hc) h3

/-- A writer is alone. -/
theorem LockOk.others_running {m : Machine} (h : LockOk m) {c : ℕ} (hc : c < m.n)
    (hw : (m.pc c).writes = 1) :
    m.lock.writers = 1 ∧ m.lock.readers = 0 ∧
      ∀ d < m.n, d ≠ c → m.pc d = .running ∧ (m.cpu d).ipi = false := by
  have h1 := h.writers
  have h2 : (m.pc c).writes ≤ ∑ d ∈ range m.n, (m.pc d).writes :=
    Finset.single_le_sum (f := fun d => (m.pc d).writes) (fun _ _ => Nat.zero_le _) (mem_range.mpr hc)
  have h3 : m.lock.writers = 1 ∧ m.lock.readers = 0 := h.excl.resolve_left (by omega)
  refine ⟨h3.1, h3.2, fun d hd hne => CpuState.idle_of_reads (h.reads_zero h3.2 hd) ?_⟩
  have h4 : (m.pc d).writes + (m.pc c).writes ≤ ∑ d ∈ range m.n, (m.pc d).writes :=
    Finset.add_le_sum (f := fun d => (m.pc d).writes) (fun _ _ => Nat.zero_le _) (mem_range.mpr hd)
      (mem_range.mpr hc) hne
  change (m.pc d).writes = 0
  omega

/-- One CPU changes, and the counters by as much as it does. -/
theorem LockOk.setCpu {m m' : Machine} (h : LockOk m) {c : ℕ} (hc : c < m.n) {k : CpuState}
    (hcpu : m'.cpu = update m.cpu c k) (hn : m'.n = m.n)
    (hr : m'.lock.readers + (m.cpu c).reads = m.lock.readers + k.reads)
    (hw : m'.lock.writers + (m.pc c).writes = m.lock.writers + k.pc.writes)
    (hwait : m'.lock.waiters = m.lock.waiters)
    (hex : m'.lock.writers = 0 ∨ m'.lock.writers = 1 ∧ m'.lock.readers = 0) : LockOk m' := by
  have h1 := Lib.sum_update_add (range m.n) m.cpu CpuState.reads (mem_range.mpr hc) k
  have h2 := Lib.sum_update_add (range m.n) m.cpu (fun k => k.pc.writes) (mem_range.mpr hc) k
  have h3 := h.readers
  have h4 := h.writers
  simp only [pc] at h2 h4 hw
  refine ⟨?_, ?_, hwait.trans h.waiters, hex⟩
  · rw [hn, hcpu]
    omega
  · simp only [hn, pc, hcpu]
    omega

/-! ### Reading the slots -/

theorem SchedOk.slots_ne {m : Machine} (h : SchedOk m) {c d : ℕ} (hc : c < m.n) (hd : d < m.n)
    (hne : c ≠ d) : m.next c ≠ m.next d := by
  rcases h.good.slot c hc with h1 | h1
  · exact h.good.slots_ne hc hd hne h1
  · rcases h.good.slot d hd with h2 | h2
    · exact fun he => h.good.slots_ne hd hc hne.symm h2 he.symm
    · intro he
      change m.sched.nextTaskToRun c = m.sched.nextTaskToRun d at he
      exact hne (h.inj c hc d hd (h1 ▸ h2 ▸ he))

theorem SchedOk.next_ptr {m : Machine} (h : SchedOk m) {c : ℕ} (hc : c < m.n) :
    m.next c ≠ nullptr := by
  rcases h.good.slot c hc with h1 | h1
  · exact (h.good.live _ h1).1
  · change m.sched.nextTaskToRun c ≠ nullptr
    rw [h1]
    exact h.idle c hc

theorem SchedOk.nextTaskSelect_eq {m : Machine} (h : SchedOk m) {c : ℕ} (hc : c < m.n) :
    nextTaskSelect m.sched c = .ok (m.next c) := by
  rw [nextTaskSelect, if_pos hc, if_neg (h.next_ptr hc)]

theorem Flow.not_unvisited {m : Machine} (h : Flow m) {c : ℕ} (hc : c < m.n)
    (hp : m.pc c ≠ .running) : ¬ Unvisited m c := fun hu => hp (h.unvisited c hc hu).1

/-- A CPU that waits for its next task and finds the flag down: nobody has the
task in its registers. -/
theorem Inv.not_live_elsewhere {m : Machine} (h : Inv m) {c : ℕ} (hc : c < m.n) {t : TaskPtr}
    (hp : m.pc c = .wait t) (hw : m.awaitSave t = false) {d : ℕ} (hd : d < m.n) (hne : d ≠ c) :
    (m.cpu d).live ≠ some t := fun hl => by
  have hnext : m.next c = t := (h.loc c hc).target t (by rw [hp]; rfl)
  have hd' : m.next d ≠ t := hnext ▸ h.sched.slots_ne hd hc hne
  rcases h.flags d hd t hl hd' with hu | hu
  · -- in the first loop of the tick no CPU but 0 is in the scheduler
    have hfr : (m.pc 0).frontier = some 1 := by
      cases h0 : m.pc 0 <;> simp [h0, Pc.unflagged, Pc.frontier] at hu ⊢
    have hc0 : c ≠ 0 := fun he => by
      rw [← he, hp] at hfr
      cases hfr
    have := (h.unvisited c hc ⟨1, hfr, Nat.one_le_iff_ne_zero.mpr hc0⟩).1
    rw [hp] at this
    cases this
  · rw [hw] at hu
    cases hu

/-! ### One CPU moves -/

/-- What a step of another CPU leaves of a CPU: it may only send it an
interrupt, and only to a CPU outside the scheduler that the tick is done with. -/
structure Frame (m m' : Machine) (d : ℕ) : Prop where
  pc : (m'.cpu d).pc = (m.cpu d).pc
  current : (m'.cpu d).current = (m.cpu d).current
  live : (m'.cpu d).live = (m.cpu d).live
  ipi : (m'.cpu d).ipi = (m.cpu d).ipi ∨
    (m'.cpu d).ipi = true ∧ (m.cpu d).pc = .running ∧ d ≠ 0 ∧ ¬ Unvisited m' d
  next : m'.next d = m.next d
  running : m'.sched.cpuRunning d = m.sched.cpuRunning d

theorem Frame.of_update {m m' : Machine} {c : ℕ} {k : CpuState} (hcpu : m'.cpu = update m.cpu c k)
    {d : ℕ} (hd : d ≠ c) (hnext : m'.next d = m.next d)
    (hrun : m'.sched.cpuRunning d = m.sched.cpuRunning d) : Frame m m' d := by
  have he : m'.cpu d = m.cpu d := by rw [hcpu, Function.update_of_ne hd]
  exact ⟨by rw [he], by rw [he], by rw [he], .inl (by rw [he]), hnext, hrun⟩

/-- A step of CPU `c`. -/
theorem Flow.advance {m m' : Machine} (h : Flow m) {c : ℕ} {k : CpuState} (hself : m'.cpu c = k)
    (hfr : ∀ d ≠ c, Frame m m' d) (hn : m'.n = m.n)
    (hpend : ∀ d < m.n, d ≠ c → ∀ t, m.pc d = .add t → t ∈ m'.pending) (hloc : Local m' c)
    (hset : k.pc.settled = true → k.ipi = false → m'.next c = k.current ∨ Unvisited m' c)
    (hunv : ∀ d < m.n, Unvisited m' d → d ≠ c ∧ Unvisited m d)
    (hlost : ∀ d < m.n, d ≠ c → Unvisited m d → (m'.cpu d).ipi = false →
      Unvisited m' d ∨ m.next d = (m.cpu d).current)
    (huniq : ∀ t, k.live = some t → ∀ d < m.n, d ≠ c → (m.cpu d).live ≠ some t)
    (hready : ∀ t, k.pc = .load t → ∀ d < m.n, d ≠ c → (m.cpu d).live ≠ some t)
    (hready' : ∀ d < m.n, d ≠ c → ∀ t, m.pc d = .load t → k.live ≠ some t)
    (hflag : ∀ d < m.n, ∀ t, (m'.cpu d).live = some t → m'.next d ≠ t →
      (m'.pc 0).unflagged d ∨ m'.awaitSave t = true) : Flow m' := by
  refine ⟨fun d hd => ?_, fun d hd h1 h2 => ?_, fun d hd hu => ?_, fun d hd e he t h1 h2 => ?_,
    fun d hd t hp e he hne => ?_, fun d hd => hflag d (hn ▸ hd)⟩
  · by_cases he : d = c
    · exact he ▸ hloc
    · have hd' := h.loc d (hn ▸ hd)
      have hf := hfr d he
      refine ⟨?_, ?_, ?_, ?_, ?_, fun hi => ?_, ?_, ?_, ?_⟩
      case refine_6 =>
        simp only [pc, hf.pc]
        rcases hf.ipi with h1 | ⟨-, h1, h2, -⟩
        · exact hd'.ipi (h1 ▸ hi)
        · exact ⟨h1, h2⟩
      all_goals simp only [pc, hf.pc, hf.current, hf.live, hf.next, hf.running, hn]
      exacts [hd'.live, hd'.running, hd'.ptr, hd'.target, hd'.tick, hd'.front, hd'.trigger,
        hpend d (hn ▸ hd) he]
  · by_cases he : d = c
    · subst he
      simp only [pc, hself] at h1 h2 ⊢
      exact hset h1 h2
    · have hf := hfr d he
      simp only [pc, hf.pc] at h1
      rw [hf.next, hf.current]
      rcases hf.ipi with h3 | ⟨h3, -⟩
      · rcases h.settled d (hn ▸ hd) h1 (h3 ▸ h2) with h4 | h4
        · exact .inl h4
        · exact (hlost d (hn ▸ hd) he h4 h2).symm
      · rw [h2] at h3
        cases h3
  · obtain ⟨he, hu'⟩ := hunv d (hn ▸ hd) hu
    have hf := hfr d he
    obtain ⟨h1, h2⟩ := h.unvisited d (hn ▸ hd) hu'
    refine ⟨hf.pc.trans h1, ?_⟩
    rcases hf.ipi with h3 | ⟨-, -, -, h3⟩
    · exact h3.trans h2
    · exact absurd hu h3
  · rw [hn] at hd he
    by_cases hdc : d = c
    · by_cases hec : e = c
      · exact hdc.trans hec.symm
      · rw [hdc, hself] at h1
        rw [(hfr e hec).live] at h2
        exact absurd h2 (huniq t h1 e he hec)
    · rw [(hfr d hdc).live] at h1
      by_cases hec : e = c
      · rw [hec, hself] at h2
        exact absurd h1 (huniq t h2 d hd hdc)
      · rw [(hfr e hec).live] at h2
        exact h.uniq d hd e he t h1 h2
  · rw [hn] at hd he
    by_cases hdc : d = c
    · subst hdc
      simp only [pc, hself] at hp
      rw [(hfr e hne).live]
      exact hready t hp e he hne
    · simp only [pc, (hfr d hdc).pc] at hp
      by_cases hec : e = c
      · rw [hec, hself]
        exact hready' d hd hdc t hp
      · rw [(hfr e hec).live]
        exact h.ready d hd t hp e he hne

/-- The frontier of a tick only depends on CPU 0. -/
theorem unvisited_congr {m m' : Machine} (h : (m'.pc 0).frontier = (m.pc 0).frontier) (d : ℕ) :
    Unvisited m' d ↔ Unvisited m d := by
  unfold Unvisited
  rw [h]

/-- A step of CPU `c` that leaves the slots and does not move the frontier.
What it takes into the registers must be nowhere else, and the flags it clears
must be of no task that has to be saved. -/
theorem Flow.advance_same {m m' : Machine} (h : Flow m) {c : ℕ} {k : CpuState}
    (hcpu : m'.cpu = update m.cpu c k) (hn : m'.n = m.n)
    (hpend : ∀ d < m.n, d ≠ c → ∀ t, m.pc d = .add t → t ∈ m'.pending)
    (hnext : m'.sched.nextTaskToRun = m.sched.nextTaskToRun)
    (hrun : ∀ d ≠ c, m'.sched.cpuRunning d = m.sched.cpuRunning d)
    (hloc : Local m' c)
    (hset : k.pc.settled = true → k.ipi = false → m.next c = k.current)
    (hvis : ¬ Unvisited m c)
    (hfr : k.pc.frontier = (m.pc c).frontier)
    (hfl : ∀ d < m.n, (m.pc c).unflagged d → k.pc.unflagged d ∨
      ∀ t, (m'.cpu d).live = some t → m'.awaitSave t = true)
    (huniq : ∀ t, k.live = some t → ∀ d < m.n, d ≠ c → (m.cpu d).live ≠ some t)
    (hready : ∀ t, k.pc = .load t → ∀ d < m.n, d ≠ c → (m.cpu d).live ≠ some t)
    (hready' : ∀ d < m.n, d ≠ c → ∀ t, m.pc d = .load t → k.live ≠ some t)
    (hnew : ∀ t, k.live = some t → m.next c ≠ t → (m.cpu c).live = some t)
    (hflag : ∀ d < m.n, ∀ t, (m'.cpu d).live = some t → m.awaitSave t = true → m.next d ≠ t →
      m'.awaitSave t = true) : Flow m' := by
  have h0 : (m'.pc 0).frontier = (m.pc 0).frontier ∧
      ∀ d < m.n, (m.pc 0).unflagged d → (m'.pc 0).unflagged d ∨
        ∀ t, (m'.cpu d).live = some t → m'.awaitSave t = true := by
    by_cases he : c = 0
    · subst he
      have he' : m'.cpu 0 = k := by rw [hcpu, Function.update_self]
      simp only [pc, he']
      exact ⟨hfr, hfl⟩
    · have he' : m'.cpu 0 = m.cpu 0 := by rw [hcpu, Function.update_of_ne (Ne.symm he)]
      simp only [pc, he']
      exact ⟨trivial, fun _ _ h => .inl h⟩
  have hu := unvisited_congr h0.1
  have hnext' : ∀ d, m'.next d = m.next d := fun d => by simp only [next, hnext]
  refine h.advance (k := k) (by rw [hcpu, Function.update_self])
    (fun d hd => .of_update hcpu hd (hnext' d) (hrun d hd)) hn hpend hloc
    (fun h1 h2 => .inl (hnext' c ▸ hset h1 h2)) (fun d _ hd => ?_)
    (fun d _ _ hd _ => .inl ((hu d).mpr hd)) huniq hready hready' (fun d hd t ht hne => ?_)
  · have hd' := (hu d).mp hd
    exact ⟨fun he => hvis (he ▸ hd'), hd'⟩
  · rw [hnext'] at hne
    have hlive : (m.cpu d).live = some t := by
      by_cases he : d = c
      · subst he
        rw [hcpu, Function.update_self] at ht
        exact hnew t ht hne
      · rwa [hcpu, Function.update_of_ne he] at ht
    rcases h.flags d hd t hlive hne with h1 | h1
    · exact (h0.2 d hd h1).imp_right fun h2 => h2 t ht
    · exact .inr (hflag d hd t ht h1 hne)

/-- A step of CPU `c` that only moves its program counter, and may touch the
lock and raise flags. -/
theorem Flow.goto {m m' : Machine} (h : Flow m) {c : ℕ} (hc : c < m.n) {p : Pc}
    (hcpu : m'.cpu = update m.cpu c { m.cpu c with pc := p }) (hsched : m'.sched = m.sched)
    (hpend : m'.pending = m.pending) (hipi : (m.cpu c).ipi = false) (hvis : ¬ Unvisited m c)
    (hholds : p.holds (m.cpu c).current = (m.pc c).holds (m.cpu c).current)
    (htarget : ∀ t, p.target = some t → m.next c = t)
    (htick : p.isTick = true → c = 0)
    (hfr : p.frontier = (m.pc c).frontier)
    (htrig : ∀ i, p = .tickTrigger i → i < m.n)
    (hadd : ∀ t, p = .add t → t ∈ m.pending)
    (hset : p.settled = true → m.next c = (m.cpu c).current)
    (hfl : ∀ d < m.n, (m.pc c).unflagged d → p.unflagged d ∨
      ∀ t, (m'.cpu d).live = some t → m'.awaitSave t = true)
    (hready : ∀ t, p = .load t → ∀ d < m.n, d ≠ c → (m.cpu d).live ≠ some t)
    (hflag : ∀ t, m.awaitSave t = true → m'.awaitSave t = true) : Flow m' := by
  have hl := h.loc c hc
  have hself : m'.cpu c = { m.cpu c with pc := p } := by rw [hcpu, Function.update_self]
  refine h.advance_same hcpu (by rw [n, hsched])
    (fun d hd _ t ht => hpend ▸ (h.loc d hd).add t ht) (by rw [hsched])
    (fun d _ => by rw [hsched]) ?_ (fun h1 _ => hset h1) hvis hfr hfl
    (fun t ht d hd hne hd' => hne (h.uniq d hd c hc t hd' ht)) hready
    (fun d hd hne t hp => h.ready d hd t hp c hc (Ne.symm hne)) (fun t ht _ => ht)
    (fun d _ t _ ht _ => hflag t ht)
  refine ⟨?_, ?_, ?_, ?_, ?_, ?_, ?_, ?_, ?_⟩ <;>
    simp only [pc, hself, hsched, next, n, hpend]
  · rw [hholds]
    exact hl.live
  · exact hl.running
  · exact hl.ptr
  · exact htarget
  · exact htick
  · intro hi
    rw [hipi] at hi
    cases hi
  · intro k hk
    exact hl.front k (hfr ▸ hk)
  · exact htrig
  · exact hadd

/-! ### The steps -/

@[simp]
theorem reads_running : Pc.running.reads = 0 := rfl

@[simp]
theorem reads_tickSend (i : ℕ) : (Pc.tickSend i).reads = 1 := rfl

@[simp]
theorem writes_running : Pc.running.writes = 0 := rfl

@[simp]
theorem withLock_some (m : Machine) (l : RWLock ℤ) (f : Machine → Machine) :
    withLock m (some l) f = f { m with lock := l } := rfl

/-- A move of the program counter leaves the registers of every CPU. -/
@[simp]
theorem goto_live (m : Machine) (c : CoreId) (p : Pc) (d : ℕ) :
    ((m.goto c p).cpu d).live = (m.cpu d).live := by
  by_cases h : d = c
  · simp [h]
  · simp [Function.update_of_ne h]

theorem SchedOk.congr {m m' : Machine} (h : SchedOk m) (hs : m'.sched = m.sched)
    (hl : m'.launched = m.launched) (hp : m'.pending = m.pending) : SchedOk m' := by
  refine ⟨?_, ?_, ?_, ?_, ?_, ?_⟩ <;> simp only [n, hs, hl, hp]
  exacts [h.good, h.aff, h.inj, h.idle, h.sub, h.pend]

theorem Flow.ipi_false {m : Machine} (h : Flow m) {c : ℕ} (hc : c < m.n) (hp : m.pc c ≠ .running) :
    (m.cpu c).ipi = false := by
  by_contra hi
  exact hp ((h.loc c hc).ipi (by simpa using hi)).1

/-- A CPU outside the scheduler becomes the writer. -/
theorem Inv.writeAcquire {m : Machine} (h : Inv m) {c : ℕ} (hc : c < m.n)
    (hfree : m.lock.free = true) {p : Pc} (hr : p.reads = 0) (hw : p.writes = 1)
    (hholds : ∀ x, p.holds x = some x) (ht : p.target = none) (htick : p.isTick = true → c = 0)
    (hfr : p.frontier = none) (hadd : ∀ t, p = .add t → t ∈ m.pending) :
    Inv (Machine.goto { m with lock := m.lock.writeAcquire } c p) := by
  obtain ⟨hrun, hipi⟩ := h.lock.all_running hfree hc
  have h0 := (h.lock.all_running hfree (Nat.zero_lt_of_lt hc)).1
  have hvis : ∀ d, ¬ Unvisited m d := fun d ⟨k, hk, _⟩ => by
    rw [h0] at hk
    cases hk
  have hfree' : m.lock.readers = 0 ∧ m.lock.writers = 0 := by
    simpa [RWLock.free] using hfree
  refine ⟨h.toFlow.goto hc rfl rfl rfl hipi (hvis c) (by rw [hholds, hrun]; rfl) (by simp [ht])
    htick (by rw [hfr, hrun]; rfl) ?_ hadd (fun _ => ?_) ?_ ?_ (fun _ h => h), h.alive,
    h.sched.congr rfl rfl rfl, ?_⟩
  · rintro i rfl
    cases hfr
  · exact (h.settled c hc (by rw [hrun]; rfl) hipi).resolve_right (hvis c)
  · intro d _ hu
    rw [hrun] at hu
    exact hu.elim
  · rintro t rfl
    cases ht
  · refine h.lock.setCpu hc rfl rfl ?_ ?_ ?_ ?_
    · simp [CpuState.reads, hr, hrun, RWLock.writeAcquire]
    · simp [hw, hrun, RWLock.writeAcquire]
    · simp [RWLock.writeAcquire]
    · exact .inr ⟨by simp [RWLock.writeAcquire, hfree'.2], hfree'.1⟩

/-- A step that keeps the counters, when the CPU holds as much as before. -/
theorem LockOk.same {m m' : Machine} (h : LockOk m) {c : ℕ} (hc : c < m.n) {k : CpuState}
    (hcpu : m'.cpu = update m.cpu c k) (hn : m'.n = m.n) (hl : m'.lock = m.lock)
    (hr : k.reads = (m.cpu c).reads) (hw : k.pc.writes = (m.pc c).writes) : LockOk m' :=
  h.setCpu hc hcpu hn (by rw [hl, hr]) (by rw [hl, hw]) (by rw [hl]) (by rw [hl]; exact h.excl)

/-- The writer of a tick goes on as a reader. -/
theorem Inv.tickDowngrade {m : Machine} (h : Inv m) {c : ℕ} (hc : c < m.n)
    (hp : m.pc c = .tickDowngrade) :
    Inv (withLock m m.lock.releaseMutability fun m => m.goto c (.tickFlag 0)) := by
  obtain ⟨hw, hr, -⟩ := h.lock.others_running hc (by rw [hp]; rfl)
  have hne : m.pc c ≠ .running := by simp [hp]
  have hl : m.lock.releaseMutability = some { readers := 1, writers := 0, waiters := m.lock.waiters } := by
    simp [RWLock.releaseMutability, hw, hr]
  rw [hl, withLock_some]
  have hip := h.toFlow.ipi_false hc hne
  refine ⟨h.toFlow.goto hc rfl rfl rfl hip (h.toFlow.not_unvisited hc hne)
    (by rw [hp]; rfl) (by simp [Pc.target]) (fun _ => (h.loc c hc).tick (by rw [hp]; rfl))
    (by rw [hp]; rfl) (by simp) (by simp) (by simp [Pc.settled]) ?_ (by simp) (fun _ h => h),
    h.alive, h.sched.congr rfl rfl rfl, ?_⟩
  · exact fun d _ _ => .inl (Nat.zero_le d)
  · refine h.lock.setCpu hc rfl rfl ?_ ?_ rfl (.inl rfl)
    · simp [CpuState.reads, hp, hip, Pc.reads, hr]
    · simp [hp, Pc.writes, hw]

/-- The tick raises the flag of the task CPU `i` runs. -/
theorem Inv.tickFlag {m : Machine} (h : Inv m) {c : ℕ} (hc : c < m.n) {i : ℕ}
    (hp : m.pc c = .tickFlag i) (hi : i < m.n) :
    Inv (Machine.goto { m with awaitSave := update m.awaitSave (m.cpu i).current true } c
      (.tickFlag (i + 1))) := by
  have hne : m.pc c ≠ .running := by simp [hp]
  have hip := h.toFlow.ipi_false hc hne
  obtain rfl : c = 0 := (h.loc c hc).tick (by rw [hp]; rfl)
  refine ⟨h.toFlow.goto hc rfl rfl rfl hip (h.toFlow.not_unvisited hc hne)
    (by rw [hp]; rfl) (by simp [Pc.target]) (fun _ => rfl)
    (by rw [hp]; rfl) (by simp) (by simp) (by simp [Pc.settled]) ?_ (by simp) ?_,
    h.alive, h.sched.congr rfl rfl rfl, ?_⟩
  · intro d hd hu
    rw [hp] at hu
    rcases Nat.lt_or_eq_of_le (show i ≤ d from hu) with hlt | rfl
    · exact .inl hlt
    · refine .inr fun t ht => ?_
      -- a CPU in the first loop's range is outside the scheduler, or it is CPU 0
      have hlive : (m.cpu i).live = some (m.cpu i).current := by
        by_cases hi0 : i = 0
        · rw [hi0, (h.loc 0 hc).live, hp]
          rfl
        · have hrun := (h.unvisited i hi ⟨1, by rw [hp]; rfl, Nat.one_le_iff_ne_zero.mpr hi0⟩).1
          rw [(h.loc i hi).live, hrun]
          rfl
      rw [goto_live, hlive, Option.some.injEq] at ht
      subst ht
      simp
  · intro t ht
    by_cases he : t = (m.cpu i).current
    · simp [he]
    · simpa [Function.update_of_ne he] using ht
  · exact h.lock.same hc rfl rfl rfl (by simp [CpuState.reads, hp, Pc.reads]) (by rw [hp]; rfl)

/-- The first loop of the tick is done. -/
theorem Inv.tickFlag_done {m : Machine} (h : Inv m) {c : ℕ} (hc : c < m.n) {i : ℕ}
    (hp : m.pc c = .tickFlag i) (hi : ¬ i < m.n) : Inv (m.goto c (.tickSend 1)) := by
  have hne : m.pc c ≠ .running := by simp [hp]
  refine ⟨h.toFlow.goto hc rfl rfl rfl (h.toFlow.ipi_false hc hne) (h.toFlow.not_unvisited hc hne)
    (by rw [hp]; rfl) (by simp [Pc.target]) (fun _ => (h.loc c hc).tick (by rw [hp]; rfl))
    (by rw [hp]; rfl) (by simp) (by simp) (by simp [Pc.settled]) ?_ (by simp) (fun _ h => h),
    h.alive, h.sched.congr rfl rfl rfl, ?_⟩
  · intro d hd hu
    rw [hp] at hu
    exact absurd (show i ≤ d from hu) (by omega)
  · exact h.lock.same hc rfl rfl rfl (by simp [CpuState.reads, hp, Pc.reads]) (by rw [hp]; rfl)

/-- The tick acquires the lock for CPU `i`. -/
theorem Inv.tickSend_trigger {m : Machine} (h : Inv m) {c : ℕ} (hc : c < m.n) {i : ℕ}
    (hp : m.pc c = .tickSend i) (hi : i < m.n) (hl : m.lock.readable = true) :
    Inv (Machine.goto { m with lock := m.lock.readAcquire } c (.tickTrigger i)) := by
  have hne : m.pc c ≠ .running := by simp [hp]
  have hip := h.toFlow.ipi_false hc hne
  refine ⟨h.toFlow.goto hc rfl rfl rfl hip (h.toFlow.not_unvisited hc hne)
    (by rw [hp]; rfl) (by simp [Pc.target]) (fun _ => (h.loc c hc).tick (by rw [hp]; rfl))
    (by rw [hp]; rfl) (fun j hj => ?_) (by simp) (by simp [Pc.settled]) ?_ (by simp) (fun _ h => h),
    h.alive, h.sched.congr rfl rfl rfl, ?_⟩
  · injection hj with hj
    exact hj ▸ hi
  · intro d _ hu
    rw [hp] at hu
    exact hu.elim
  · have hw0 : m.lock.writers = 0 := by simpa [RWLock.readable] using hl
    refine h.lock.setCpu hc rfl rfl ?_ ?_ rfl (.inl hw0)
    · simp [CpuState.reads, hp, hip, RWLock.readAcquire, Pc.reads]
      omega
    · simp [hp, Pc.writes, RWLock.readAcquire]

/-- CPU 0 moves on in the second loop of the tick, past CPUs that need no
interrupt. -/
theorem Inv.tickSend_pass {m : Machine} (h : Inv m) {c : ℕ} (hc : c < m.n) {i : ℕ}
    (hp : m.pc c = .tickSend i) {p : Pc} (hr : p.reads = 1) (hw : p.writes = 0)
    (hholds : ∀ x, p.holds x = some x) (ht : p.target = none) (hset : p.settled = false)
    (hfr : ∀ k, p.frontier = some k → i < k)
    (hlost : ∀ d < m.n, i ≤ d → (∃ k, p.frontier = some k ∧ k ≤ d) ∨
      m.next d = (m.cpu d).current) : Inv (m.goto c p) := by
  have hne : m.pc c ≠ .running := by simp [hp]
  have hip := h.toFlow.ipi_false hc hne
  have hl := h.loc c hc
  obtain rfl : c = 0 := hl.tick (by rw [hp]; rfl)
  have hi1 : 1 ≤ i := hl.front i (by rw [hp]; rfl)
  have hself : (m.goto 0 p).cpu 0 = { m.cpu 0 with pc := p } := by simp
  refine ⟨h.toFlow.advance hself (fun d hd => .of_update rfl hd rfl rfl) rfl
    (fun d hd _ t ht => (h.loc d hd).add t ht) ?_ ?_ ?_ ?_ ?_ ?_ ?_ ?_, h.alive,
    h.sched.congr rfl rfl rfl, h.lock.same hc rfl rfl rfl ?_ ?_⟩
  · refine ⟨?_, hl.running, ?_, ?_, fun _ => rfl, ?_, ?_, ?_, ?_⟩ <;> simp only [pc, hself]
    · rw [hl.live, hp, hholds]
      rfl
    · exact hl.ptr
    · simp [ht]
    · simp [hip]
    · exact fun k hk => by have := hfr k hk; omega
    · rintro j rfl
      cases hr
    · rintro t rfl
      cases hset
  · intro h1
    rw [hset] at h1
    cases h1
  · rintro d - ⟨k, hk, hle⟩
    simp only [pc, hself] at hk
    have := hfr k hk
    exact ⟨by omega, i, by rw [hp]; rfl, by omega⟩
  · rintro d hd - ⟨k, hk, hle⟩ -
    rw [hp] at hk
    obtain rfl : i = k := Option.some.inj hk
    simp only [Unvisited, pc, hself]
    exact hlost d hd hle
  · exact fun t ht d hd hne hd' => hne (h.uniq d hd 0 hc t hd' ht)
  · rintro t rfl
    cases ht
  · exact fun d hd hne t hp => h.ready d hd t hp 0 hc (Ne.symm hne)
  · intro d hd t hlive hnext
    rw [goto_live] at hlive
    rcases h.flags d hd t hlive hnext with hu | hu
    · rw [hp] at hu
      exact hu.elim
    · exact .inr hu
  · simp [CpuState.reads, hp, hr]
  · rw [hp]
    exact hw

/-- The interrupt to CPU `i` is sent, and with it the acquire made for it. -/
theorem Inv.tickTrigger {m : Machine} (h : Inv m) {c : ℕ} (hc : c < m.n) {i : ℕ}
    (hp : m.pc c = .tickTrigger i) :
    Inv ((m.setCpu i { m.cpu i with ipi := true }).goto c (.tickSend (i + 1))) := by
  have hne : m.pc c ≠ .running := by simp [hp]
  have hip := h.toFlow.ipi_false hc hne
  have hl := h.loc c hc
  obtain rfl : c = 0 := hl.tick (by rw [hp]; rfl)
  have hi1 : 1 ≤ i := hl.front i (by rw [hp]; rfl)
  have hi : i < m.n := hl.trigger i hp
  have hi0 : i ≠ 0 := by omega
  obtain ⟨hirun, hiipi⟩ := h.unvisited i hi ⟨i, by rw [hp]; rfl, le_rfl⟩
  set m' := (m.setCpu i { m.cpu i with ipi := true }).goto 0 (.tickSend (i + 1)) with hm'
  have hself : m'.cpu 0 = { m.cpu 0 with pc := .tickSend (i + 1) } := by
    simp [hm', Function.update_of_ne hi0.symm]
  have hati : m'.cpu i = { m.cpu i with ipi := true } := by
    simp [hm', Function.update_of_ne hi0]
  have hoth : ∀ d ≠ 0, d ≠ i → m'.cpu d = m.cpu d := fun d hd hdi => by
    simp [hm', Function.update_of_ne hd, Function.update_of_ne hdi]
  have hunv : ∀ d, Unvisited m' d → i < d := by
    rintro d ⟨k, hk, hle⟩
    simp only [pc, hself] at hk
    have := Option.some.inj hk
    omega
  refine ⟨h.toFlow.advance hself (fun d hd => ?_) rfl
    (fun d hd _ t ht => (h.loc d hd).add t ht) ?_ (by simp [Pc.settled]) ?_ ?_ ?_ (by simp) ?_ ?_,
    h.alive, h.sched.congr rfl rfl rfl, ?_⟩
  · by_cases hdi : d = i
    · subst hdi
      refine ⟨by rw [hati], by rw [hati], by rw [hati], .inr ⟨by rw [hati], hirun, hd, ?_⟩, rfl, rfl⟩
      exact fun hu => lt_irrefl _ (hunv d hu)
    · have he := hoth d hd hdi
      exact ⟨by rw [he], by rw [he], by rw [he], .inl (by rw [he]), rfl, rfl⟩
  · refine ⟨?_, ?_, ?_, ?_, fun _ => rfl, ?_, ?_, ?_, ?_⟩ <;> simp only [pc, hself]
    · rw [hl.live, hp]
      rfl
    · exact hl.running
    · exact hl.ptr
    · simp [Pc.target]
    · simp [hip]
    · simp [Pc.frontier]
    · simp
    · simp
  · intro d _ hu
    have := hunv d hu
    exact ⟨by omega, i, by rw [hp]; rfl, by omega⟩
  · rintro d - hd ⟨k, hk, hle⟩ hdi
    rw [hp] at hk
    obtain rfl : i = k := Option.some.inj hk
    have hne : d ≠ i := by
      rintro rfl
      rw [hati] at hdi
      cases hdi
    exact .inl ⟨i + 1, by simp [pc, hself, Pc.frontier], by omega⟩
  · exact fun t ht d hd hne hd' => hne (h.uniq d hd 0 hc t hd' ht)
  · exact fun d hd hne t hp => h.ready d hd t hp 0 hc (Ne.symm hne)
  · intro d hd t hlive hnext
    have hlive' : (m.cpu d).live = some t := by
      by_cases hd0 : d = 0
      · subst hd0
        rwa [hself] at hlive
      · by_cases hdi : d = i
        · subst hdi
          rwa [hati] at hlive
        · rwa [hoth d hd0 hdi] at hlive
    rcases h.flags d hd t hlive' hnext with hu | hu
    · rw [hp] at hu
      exact hu.elim
    · exact .inr hu
  · -- the counter counts CPU `i` first, then gives up CPU 0's second acquire
    have hw0 : m.lock.writers = 0 := by
      have h1 := h.lock.readers
      have h2 : (m.cpu 0).reads ≤ ∑ d ∈ range m.n, (m.cpu d).reads :=
        Finset.single_le_sum (f := fun d => (m.cpu d).reads) (fun _ _ => Nat.zero_le _) (mem_range.mpr hc)
      have h3 : (m.cpu 0).reads = 2 := by simp [CpuState.reads, hp, hip, Pc.reads]
      rcases h.lock.excl with h4 | ⟨-, h4⟩
      · exact h4
      · omega
    have h1 : LockOk (Machine.setCpu { m with lock := m.lock.readAcquire } i
        { m.cpu i with ipi := true }) := by
      refine h.lock.setCpu hi rfl rfl ?_ ?_ rfl (.inl hw0)
      · simp [CpuState.reads, hirun, hiipi, RWLock.readAcquire]
      · simp [RWLock.readAcquire]
    refine h1.setCpu (c := 0) (k := { m.cpu 0 with pc := .tickSend (i + 1) }) hc ?_ rfl ?_ ?_ rfl
      (.inl hw0)
    · simp [hm', Function.update_of_ne hi0.symm]
    · simp [hm', Function.update_of_ne hi0.symm, CpuState.reads, hp, hip, Pc.reads,
        RWLock.readAcquire]
      omega
    · have hp0 : (m.cpu 0).pc = .tickTrigger i := hp
      simp [hm', Machine.pc, Function.update_of_ne hi0.symm, hp0, Pc.writes, RWLock.readAcquire]

/-- CPU `c` takes its interrupt, and the acquire that came with it. -/
theorem Inv.deliver {m : Machine} (h : Inv m) {c : ℕ} (hc : c < m.n)
    (hi : (m.cpu c).ipi = true) : Inv ((m.setCpu c { m.cpu c with ipi := false }).enter c) := by
  have hl := h.loc c hc
  obtain ⟨hp, hc0⟩ := hl.ipi hi
  have hvis : ¬ Unvisited m c := fun hu => by
    have := (h.unvisited c hc hu).2
    rw [hi] at this
    cases this
  have hcpu : ((m.setCpu c { m.cpu c with ipi := false }).goto c .save).cpu =
      update m.cpu c { m.cpu c with pc := .save, ipi := false } := by simp
  rw [enter, if_neg hc0]
  refine ⟨h.toFlow.advance_same hcpu rfl (fun d hd _ t ht => (h.loc d hd).add t ht) rfl
    (fun _ _ => rfl) ?_ (by simp [Pc.settled]) hvis (by rw [hp]; rfl) ?_
    (fun t ht d hd hne hd' => hne (h.uniq d hd c hc t hd' ht)) (by simp)
    (fun d hd hne t hp => h.ready d hd t hp c hc (Ne.symm hne)) (fun t ht _ => ht)
    (fun _ _ _ _ h _ => h), h.alive, h.sched.congr rfl rfl rfl,
    h.lock.same hc hcpu rfl rfl ?_ ?_⟩
  · refine ⟨?_, ?_, ?_, ?_, ?_, ?_, ?_, ?_, ?_⟩ <;>
      simp only [pc, hcpu, Function.update_self, reduceCtorEq, false_imp_iff, implies_true]
    · rw [hl.live, hp]
      rfl
    · exact hl.running
    · exact hl.ptr
    · simp [Pc.target]
    · simp [Pc.isTick]
    · simp [Pc.frontier]
  · intro d _ hu
    rw [hp] at hu
    exact hu.elim
  · simp [CpuState.reads, hp, hi, Pc.reads]
  · rw [hp]
    rfl

/-- The context of the current task is saved and leaves the registers. -/
theorem Inv.saveIn {m : Machine} (h : Inv m) {c : ℕ} (hc : c < m.n)
    (hlive : (m.cpu c).live = some (m.cpu c).current) (hne : m.pc c ≠ .running)
    (hfr : (m.pc c).frontier = none) (hfl : ∀ d, ¬ (m.pc c).unflagged d) {p : Pc}
    (hr : p.reads = (m.pc c).reads) (hw : p.writes = (m.pc c).writes)
    (hholds : ∀ x, p.holds x = none) (ht : p.target = none) (htick : p.isTick = false)
    (hfr' : p.frontier = none) (hset : p.settled = true → m.next c = (m.cpu c).current) :
    Inv (Handover.saveIn m c p) := by
  have hl := h.loc c hc
  have hip := h.toFlow.ipi_false hc hne
  rw [Handover.saveIn, if_neg hl.ptr]
  have hself : ∀ w, (Machine.setCpu { m with awaitSave := w } c
      { m.cpu c with pc := p, live := none }).cpu c = { m.cpu c with pc := p, live := none } := by
    simp
  refine ⟨h.toFlow.advance_same rfl rfl (fun d hd _ t ht => (h.loc d hd).add t ht) rfl
    (fun _ _ => rfl) ?_ (fun h1 _ => hset h1) (h.toFlow.not_unvisited hc hne) (by rw [hfr, ← hfr'])
    (fun d _ hu => absurd hu (hfl d)) (by simp) ?_ (by simp) (by simp) ?_, h.alive,
    h.sched.congr rfl rfl rfl, h.lock.same hc rfl rfl rfl ?_ hw⟩
  · refine ⟨?_, ?_, ?_, ?_, ?_, ?_, ?_, ?_, ?_⟩ <;> simp only [pc, hself]
    · rw [hholds]
    · exact hl.running
    · exact hl.ptr
    · simp [ht]
    · simp [htick]
    · simp [hip]
    · simp [hfr']
    · rintro i rfl
      cases htick
    · rintro t rfl
      exact absurd (hholds nullptr) (by simp [Pc.holds])
  · rintro t rfl
    cases ht
  · intro d hd t hd' hflag _
    -- the flag that goes down is of the task CPU `c` had, which no other CPU has
    have hdc : d ≠ c := by
      rintro rfl
      rw [hself] at hd'
      cases hd'
    have hd'' : (m.cpu d).live = some t := by simpa [Function.update_of_ne hdc] using hd'
    have hne' : t ≠ (m.cpu c).current := by
      rintro rfl
      exact hdc (h.uniq d hd c hc _ hd'' hlive)
    simpa [Function.update_of_ne hne'] using hflag
  · simp [CpuState.reads, hr]

/-- The selected context goes into the registers, when it is in no others. -/
theorem Inv.loadTo {m : Machine} (h : Inv m) {c : ℕ} (hc : c < m.n) {t : TaskPtr}
    (hnext : m.next c = t) (hne : m.pc c ≠ .running)
    (hfree : ∀ d < m.n, d ≠ c → (m.cpu d).live ≠ some t)
    (hfr : (m.pc c).frontier = none) (hfl : ∀ d, ¬ (m.pc c).unflagged d) {p : Pc}
    (hr : p.reads = (m.pc c).reads) (hw : p.writes = (m.pc c).writes)
    (hholds : ∀ x, p.holds x = some t) (ht : p.target = some t) (htick : p.isTick = false)
    (hfr' : p.frontier = none) (hset : p.settled = false) : Inv (Handover.loadTo m c t p) := by
  have hl := h.loc c hc
  have hip := h.toFlow.ipi_false hc hne
  have hself : (Handover.loadTo m c t p).cpu c = { m.cpu c with pc := p, live := some t } := by
    simp [Handover.loadTo]
  have hnl : ∀ x, p ≠ .load x := by
    rintro x rfl
    exact absurd (hholds nullptr) (by simp [Pc.holds])
  refine ⟨h.toFlow.advance_same rfl rfl (fun d hd _ t ht => (h.loc d hd).add t ht) rfl
    (fun _ _ => rfl) ?_ (by simp [hset]) (h.toFlow.not_unvisited hc hne) (by rw [hfr, ← hfr'])
    (fun d _ hu => absurd hu (hfl d)) ?_ (fun x hx => absurd hx (hnl x)) ?_ ?_
    (fun _ _ _ _ h _ => h), h.alive, h.sched.congr rfl rfl rfl, h.lock.same hc rfl rfl rfl ?_ hw⟩
  · refine ⟨?_, ?_, ?_, ?_, ?_, ?_, ?_, ?_, ?_⟩ <;> simp only [pc, hself]
    · rw [hholds]
    · exact hl.running
    · exact hl.ptr
    · rintro x hx
      rw [ht] at hx
      exact hnext.trans (Option.some.inj hx)
    · simp [htick]
    · simp [hip]
    · simp [hfr']
    · rintro i rfl
      cases ht
    · rintro x rfl
      cases ht
  · rintro x hx d hd hdc
    obtain rfl := Option.some.inj hx
    exact hfree d hd hdc
  · -- a CPU that is about to load has another task in its slot
    intro d hd hdc x hx he
    obtain rfl := Option.some.inj he
    have := (h.loc d hd).target t (by rw [hx]; rfl)
    exact h.sched.slots_ne hd hc hdc (this.trans hnext.symm)
  · intro x hx hne'
    obtain rfl := Option.some.inj hx
    exact absurd hnext hne'
  · simp [CpuState.reads, hr]

/-- The loaded task becomes the current one. -/
theorem Inv.setCurrentTask {m : Machine} (h : Inv m) {c : ℕ} (hc : c < m.n) {t : TaskPtr}
    (ht : (m.pc c).target = some t) (hlive : (m.cpu c).live = some t) (hne : m.pc c ≠ .running)
    (hfr : (m.pc c).frontier = none) (hfl : ∀ d, ¬ (m.pc c).unflagged d) {p : Pc}
    (hr : p.reads = (m.pc c).reads) (hw : p.writes = (m.pc c).writes)
    (hholds : ∀ x, p.holds x = some x) (ht' : p.target = none) (htick : p.isTick = false)
    (hfr' : p.frontier = none) (hadd : ∀ x, p ≠ .add x) : Inv (Handover.setCurrentTask m c t p) := by
  have hl := h.loc c hc
  have hip := h.toFlow.ipi_false hc hne
  have hnext := hl.target t ht
  have hself : (Handover.setCurrentTask m c t p).cpu c = { m.cpu c with pc := p, current := t } := by
    simp [Handover.setCurrentTask]
  have hs : SchedOk (Handover.setCurrentTask m c t p) :=
    ⟨⟨h.sched.good.once, h.sched.good.only, h.sched.good.slot, h.sched.good.idle, h.sched.good.live,
      h.sched.good.count⟩, h.sched.aff, h.sched.inj, h.sched.idle, h.sched.sub, h.sched.pend⟩
  refine ⟨h.toFlow.advance_same rfl rfl (fun d hd _ t ht => (h.loc d hd).add t ht) rfl
    (fun d hd => Function.update_of_ne hd _ _) ?_ (fun _ _ => hnext)
    (h.toFlow.not_unvisited hc hne) (by rw [hfr, ← hfr']) (fun d _ hu => absurd hu (hfl d))
    (fun t ht d hd hne hd' => hne (h.uniq d hd c hc t hd' ht)) ?_
    (fun d hd hne t hp => h.ready d hd t hp c hc (Ne.symm hne)) (fun t ht _ => ht)
    (fun _ _ _ _ h _ => h), h.alive, hs, h.lock.same hc rfl rfl rfl ?_ hw⟩
  · refine ⟨?_, ?_, ?_, ?_, ?_, ?_, ?_, ?_, ?_⟩ <;> simp only [pc, hself]
    · rw [hholds]
      exact hlive
    · simp [Handover.setCurrentTask]
    · exact hnext ▸ h.sched.next_ptr hc
    · simp [ht']
    · simp [htick]
    · simp [hip]
    · simp [hfr']
    · rintro i rfl
      cases htick
    · exact fun x hx => absurd hx (hadd x)
  · rintro x rfl
    cases ht'
  · simp [CpuState.reads, hr]

/-- A CPU leaves the scheduler for its task, and changes the lock as it goes. -/
theorem Inv.leave {m : Machine} (h : Inv m) {c : ℕ} (hc : c < m.n) {lock : RWLock ℤ} (hne : m.pc c ≠ .running)
    (hholds : Pc.holds (m.cpu c).current .running = (m.pc c).holds (m.cpu c).current)
    (hfr : (m.pc c).frontier = none) (hset : (m.pc c).settled = true) (hfl : ∀ d, ¬(m.pc c).unflagged d)
    (hlock : LockOk (Machine.goto { m with lock } c .running)) :
    Inv (Machine.goto { m with lock } c .running) := by
  have hip := h.toFlow.ipi_false hc hne
  have hvis := h.toFlow.not_unvisited hc hne
  refine ⟨h.toFlow.goto hc rfl rfl rfl hip hvis hholds (by simp [Pc.target]) (by simp [Pc.isTick]) hfr.symm (by simp)
    (by simp) (fun _ => ?_) ?_ (by simp) (fun _ h => h), h.alive, h.sched.congr rfl rfl rfl, hlock⟩
  · exact (h.settled c hc hset hip).resolve_right hvis
  · exact fun d _ hd => absurd hd (hfl d)

/-- A reader leaves the scheduler. -/
theorem Inv.readRelease {m : Machine} (h : Inv m) {c : ℕ} (hc : c < m.n)
    (hp : m.pc c = .readRelease) :
    Inv (withLock m m.lock.readRelease fun m => m.goto c .running) := by
  have hne : m.pc c ≠ .running := by simp [hp]
  have hip := h.toFlow.ipi_false hc hne
  have hreads : (m.cpu c).reads = 1 := by simp [CpuState.reads, hp, hip, Pc.reads]
  have hpos : 1 ≤ m.lock.readers := by
    have h1 := h.lock.readers
    have h2 : (m.cpu c).reads ≤ ∑ d ∈ range m.n, (m.cpu d).reads :=
      Finset.single_le_sum (f := fun d => (m.cpu d).reads) (fun _ _ => Nat.zero_le _) (mem_range.mpr hc)
    omega
  have hl : m.lock.readRelease = some { m.lock with readers := m.lock.readers - 1 } := by
    simp only [RWLock.readRelease]
    rw [if_neg (by omega)]
  rw [hl, withLock_some]
  apply h.leave hc hne (by rw [hp]; rfl) (by rw [hp]; rfl) (by rw [hp]; rfl) (by simp [hp, Pc.unflagged])
  refine h.lock.setCpu hc rfl rfl ?_ ?_ rfl ?_
  · simp [CpuState.reads, hip, hp, Pc.reads]
  · simp [hp, Pc.writes]
  · rcases h.lock.excl with h1 | ⟨-, h1⟩
    · exact .inl h1
    · omega

/-- The writer leaves the scheduler. -/
theorem Inv.writeRelease {m : Machine} (h : Inv m) {c : ℕ} (hc : c < m.n)
    (hp : m.pc c = .writeRelease) :
    Inv (withLock m m.lock.writeRelease fun m => m.goto c .running) := by
  have hne : m.pc c ≠ .running := by simp [hp]
  have hip := h.toFlow.ipi_false hc hne
  obtain ⟨hw, hr, -⟩ := h.lock.others_running hc (by rw [hp]; rfl)
  have hl : m.lock.writeRelease = some { m.lock with writers := 0 } := by
    simp [RWLock.writeRelease, hw]
  rw [hl, withLock_some]
  apply h.leave hc hne (by rw [hp]; rfl) (by rw [hp]; rfl) (by rw [hp]; rfl) (by simp [hp, Pc.unflagged])
  refine h.lock.setCpu hc rfl rfl ?_ ?_ rfl (.inl rfl)
  · simp [CpuState.reads, hip, hp, Pc.reads]
  · simp [hp, Pc.writes, hw]

/-- Next to a writer, every other CPU runs the task chosen for it, unless the
writer is a tick that has just chosen anew. -/
theorem Inv.others_settled {m : Machine} (h : Inv m) {c : ℕ} (hc : c < m.n)
    (hw : (m.pc c).writes = 1) (hfr : (m.pc c).frontier = none) {d : ℕ} (hd : d < m.n)
    (hne : d ≠ c) : m.pc d = .running ∧ (m.cpu d).live = some (m.next d) ∧
      m.next d = (m.cpu d).current := by
  obtain ⟨-, -, hoth⟩ := h.lock.others_running hc hw
  obtain ⟨hrun, hip⟩ := hoth d hd hne
  have hvis : ¬ Unvisited m d := by
    rintro ⟨k, hk, -⟩
    by_cases hc0 : c = 0
    · rw [← hc0, hfr] at hk
      cases hk
    · rw [(hoth 0 (Nat.zero_lt_of_lt hc) (Ne.symm hc0)).1] at hk
      cases hk
  have hnext := (h.settled d hd (by rw [hrun]; rfl) hip).resolve_right hvis
  exact ⟨hrun, by rw [(h.loc d hd).live, hrun, hnext]; rfl, hnext⟩

/-- The scheduler's state after a scheduling function. -/
theorem SchedOk.after {m : Machine} (h : SchedOk m) {s : Sched}
    (hg : Good (m.launched \ m.pending) s) (hk : Keeps m.sched s) (ht : Tame m.sched s)
    {m' : Machine} (hs : m'.sched = s) (hl : m'.launched = m.launched)
    (hp : m'.pending = m.pending) : SchedOk m' := by
  refine ⟨?_, ?_, ?_, ?_, ?_, ?_⟩ <;> simp only [n, hs, hl, hp, hk.cpus, hk.idles]
  · exact hg
  · exact ht.aff h.aff
  · exact h.inj
  · exact h.idle
  · exact h.sub
  · exact fun t htp => ⟨(h.pend t htp).1, ht.idle t (h.pend t htp).2.1, (h.pend t htp).2.2⟩

/-- A blocking CPU chooses its next task; the other CPUs' slots stay. -/
theorem Inv.softReschedule {m : Machine} (h : Inv m) {c : ℕ} (hc : c < m.n)
    (hp : m.pc c = .softReschedule) :
    ∃ s, rescheduleOnlyOne m.sched c = some s ∧
      Inv (Machine.goto { m with sched := s } c .softSelect) := by
  obtain ⟨s, hs, hg, hk, ht, hd⟩ := rescheduleOnlyOne_ok h.sched.good hc
  refine ⟨s, hs, ?_⟩
  have hne : m.pc c ≠ .running := by simp [hp]
  have hip := h.toFlow.ipi_false hc hne
  have hl := h.loc c hc
  set m' := Machine.goto { m with sched := s } c .softSelect
  have hself : m'.cpu c = { m.cpu c with pc := .softSelect } := by simp [m']
  have h0 : (m'.pc 0).frontier = (m.pc 0).frontier ∧
      ∀ d, (m.pc 0).unflagged d → (m'.pc 0).unflagged d := by
    by_cases hc0 : c = 0
    · subst hc0
      simp only [pc, hself]
      rw [show (m.cpu 0).pc = .softReschedule from hp]
      exact ⟨rfl, fun _ h => h⟩
    · have he : m'.cpu 0 = m.cpu 0 := by simp [m', Function.update_of_ne (Ne.symm hc0)]
      simp only [pc, he]
      exact ⟨trivial, fun _ h => h⟩
  have hu := unvisited_congr h0.1
  have hn : m'.n = m.n := hk.cpus
  refine ⟨h.toFlow.advance hself (fun d hdc => .of_update rfl hdc (hd d hdc) (congrFun hk.running d))
    hn (fun d hd _ t ht => (h.loc d hd).add t ht) ?_ (by simp [Pc.settled]) ?_ ?_
    (fun t ht d hd hne hd' => hne (h.uniq d hd c hc t hd' ht)) (by simp)
    (fun d hd hne t hp => h.ready d hd t hp c hc (Ne.symm hne)) ?_, h.alive,
    h.sched.after hg hk ht rfl rfl rfl, h.lock.same hc rfl hn rfl ?_ ?_⟩
  · refine ⟨?_, ?_, ?_, ?_, ?_, ?_, ?_, ?_, ?_⟩ <;> simp only [pc, hself]
    · rw [hl.live, hp]
      rfl
    · exact (congrFun hk.running c).trans hl.running
    · exact hl.ptr
    · simp [Pc.target]
    · simp [Pc.isTick]
    · simp [hip]
    · simp [Pc.frontier]
    · simp
    · simp
  · intro d _ hd'
    have := (hu d).mp hd'
    exact ⟨fun he => h.toFlow.not_unvisited hc hne (he ▸ this), this⟩
  · exact fun d _ _ hd' _ => .inl ((hu d).mpr hd')
  · intro d hdn t hlive hnext
    have hdc : d ≠ c := by
      rintro rfl
      rw [hself] at hlive
      have := hl.live
      rw [hp] at this
      rw [show (m.cpu d).live = none from this] at hlive
      cases hlive
    rw [show (m'.cpu d).live = (m.cpu d).live by simp [m', Function.update_of_ne hdc]] at hlive
    rw [show m'.next d = m.next d from hd d hdc] at hnext
    rcases h.flags d hdn t hlive hnext with h1 | h1
    · exact .inl (h0.2 d h1)
    · exact .inr h1
  · simp [CpuState.reads, hp, Pc.reads]
  · rw [hp]
    rfl

/-- A blocking CPU that gets its own task again goes on with it. -/
theorem Inv.softSelect_same {m : Machine} (h : Inv m) {c : ℕ} (hc : c < m.n)
    (hp : m.pc c = .softSelect) (he : (m.cpu c).current = m.next c) :
    Inv (Machine.setCpu { m with awaitSave := update m.awaitSave (m.next c) false } c
      { m.cpu c with pc := .writeRelease, live := some (m.next c) }) := by
  have hne : m.pc c ≠ .running := by simp [hp]
  have hip := h.toFlow.ipi_false hc hne
  have hl := h.loc c hc
  have hoth := fun d hd hdc => h.others_settled (d := d) hc (by rw [hp]; rfl) (by rw [hp]; rfl) hd hdc
  have hself : ∀ w, (Machine.setCpu { m with awaitSave := w } c
      { m.cpu c with pc := .writeRelease, live := some (m.next c) }).cpu c =
        { m.cpu c with pc := .writeRelease, live := some (m.next c) } := by simp
  refine ⟨h.toFlow.advance_same rfl rfl (fun d hd _ t ht => (h.loc d hd).add t ht) rfl
    (fun _ _ => rfl) ?_ (fun _ _ => he.symm) (h.toFlow.not_unvisited hc hne) (by rw [hp]; rfl) ?_ ?_
    (by simp) ?_ ?_ ?_, h.alive, h.sched.congr rfl rfl rfl, h.lock.same hc rfl rfl rfl ?_ ?_⟩
  · refine ⟨?_, ?_, ?_, ?_, ?_, ?_, ?_, ?_, ?_⟩ <;> simp only [pc, hself]
    · rw [he]
      rfl
    · exact hl.running
    · exact hl.ptr
    · simp [Pc.target]
    · simp [Pc.isTick]
    · simp [hip]
    · simp [Pc.frontier]
    · simp
    · simp
  · intro d _ hu
    rw [hp] at hu
    exact hu.elim
  · rintro t ht d hd hdc
    obtain rfl := Option.some.inj ht
    rw [(hoth d hd hdc).2.1]
    exact fun h' => h.sched.slots_ne hd hc hdc (Option.some.inj h')
  · intro d hd hdc t ht
    rw [(hoth d hd hdc).1] at ht
    cases ht
  · intro t ht hne'
    exact absurd (Option.some.inj ht) hne'
  · intro d hd t hlive hflag hnext
    have hdc : d ≠ c := by
      rintro rfl
      rw [hself] at hlive
      exact hnext (Option.some.inj hlive)
    rw [show (Machine.cpu (Machine.setCpu _ c _) d).live = (m.cpu d).live by
      simp [Function.update_of_ne hdc], (hoth d hd hdc).2.1] at hlive
    exact absurd (Option.some.inj hlive) hnext
  · simp [CpuState.reads, hp, Pc.reads]
  · rw [hp]
    rfl

/-- The tick has chosen anew for every CPU; it has come to none of them yet. -/
theorem Inv.tickReschedule {m : Machine} (h : Inv m) {c : ℕ} (hc : c < m.n)
    (hp : m.pc c = .tickReschedule) :
    ∃ s, rescheduleAll m.sched = some (.ok (), s) ∧
      Inv (Machine.goto { m with sched := s } c .tickDowngrade) := by
  have hl := h.loc c hc
  obtain rfl : c = 0 := hl.tick (by rw [hp]; rfl)
  obtain ⟨s, hs, hg, hk, ht⟩ := rescheduleAll_ok h.sched.good h.sched.aff hc
  refine ⟨s, hs, ?_⟩
  have hip := h.toFlow.ipi_false hc (by simp [hp])
  obtain ⟨-, -, hoth⟩ := h.lock.others_running hc (by rw [hp]; rfl)
  set m' := Machine.goto { m with sched := s } 0 .tickDowngrade
  have hself : m'.cpu 0 = { m.cpu 0 with pc := .tickDowngrade } := by simp [m']
  have hsame : ∀ d ≠ 0, m'.cpu d = m.cpu d := fun d hd => by simp [m', Function.update_of_ne hd]
  have hn : m'.n = m.n := hk.cpus
  have hlive : ∀ d, (m'.cpu d).live = (m.cpu d).live := fun d => goto_live _ 0 _ d
  have hnotload : ∀ d < m.n, ∀ t, m'.pc d ≠ .load t := fun d hd t => by
    by_cases hd0 : d = 0
    · subst hd0
      simp [pc, hself]
    · have := (hoth d hd hd0).1
      simp [pc, hsame d hd0, this]
  refine ⟨⟨fun d hd => ?_, fun d hd h1 _ => ?_, fun d hd hu => ?_, fun d hd e he t h1 h2 => ?_,
    fun d hd t ht => absurd ht (hnotload d (hn ▸ hd) t), fun d _ t _ _ => .inl ?_⟩, h.alive,
    h.sched.after hg hk ht rfl rfl rfl, h.lock.same hc rfl hn rfl ?_ ?_⟩
  · by_cases hd0 : d = 0
    · subst hd0
      refine ⟨?_, ?_, ?_, ?_, ?_, ?_, ?_, ?_, ?_⟩ <;> simp only [pc, hself]
      · rw [hl.live, hp]
        rfl
      · exact (congrFun hk.running 0).trans hl.running
      · exact hl.ptr
      · simp [Pc.target]
      · simp
      · simp [hip]
      · simp [Pc.frontier]
      · simp
      · simp
    · have hd' := h.loc d (hn ▸ hd)
      have hrun := (hoth d (hn ▸ hd) hd0).1
      refine ⟨?_, ?_, ?_, ?_, ?_, ?_, ?_, ?_, ?_⟩ <;> simp only [pc, hsame d hd0]
      · exact hd'.live
      · exact (congrFun hk.running d).trans hd'.running
      · exact hd'.ptr
      · rw [show (m.cpu d).pc = .running from hrun]
        simp [Pc.target]
      · exact hd'.tick
      · exact hd'.ipi
      · exact hd'.front
      · rw [show (m.cpu d).pc = .running from hrun]
        simp
      · exact hd'.add
  · by_cases hd0 : d = 0
    · subst hd0
      simp [pc, hself, Pc.settled] at h1
    · exact .inr ⟨1, by simp [pc, hself, Pc.frontier], Nat.one_le_iff_ne_zero.mpr hd0⟩
  · obtain ⟨k, hk', hle⟩ := hu
    simp only [pc, hself] at hk'
    have hd0 : d ≠ 0 := by
      rintro rfl
      cases hk'
      cases hle
    simp only [pc, hsame d hd0]
    exact hoth d (hn ▸ hd) hd0
  · rw [hlive] at h1 h2
    exact h.uniq d (hn ▸ hd) e (hn ▸ he) t h1 h2
  · simp [pc, hself, Pc.unflagged]
  · simp [CpuState.reads, hp, Pc.reads]
  · rw [hp]
    rfl

/-- The writer of a `task_run` queues the task. -/
theorem Inv.add {m : Machine} (h : Inv m) {c : ℕ} (hc : c < m.n) {t : TaskPtr}
    (hp : m.pc c = .add t) :
    Inv (Machine.goto { m with
      sched := addEntityToQueue m.sched t, pending := m.pending.erase t } c .writeRelease) := by
  have hne : m.pc c ≠ .running := by simp [hp]
  have hip := h.toFlow.ipi_false hc hne
  have hl := h.loc c hc
  have htp := hl.add t hp
  obtain ⟨hptr, hidle, hidles⟩ := h.sched.pend t htp
  obtain ⟨-, -, hoth⟩ := h.lock.others_running hc (by rw [hp]; rfl)
  have ha := addEntityToQueue_added m.sched hptr hidle
  set m' := Machine.goto { m with
    sched := addEntityToQueue m.sched t, pending := m.pending.erase t } c .writeRelease
  have hself : m'.cpu c = { m.cpu c with pc := .writeRelease } := by simp [m']
  have hn : m'.n = m.n := ha.keeps.cpus
  have hset : m.launched \ m.pending.erase t = insert t (m.launched \ m.pending) :=
    sdiff_erase (h.sched.sub htp)
  have hs : SchedOk m' := by
    refine ⟨?_, ?_, ?_, ?_, ?_, ?_⟩
    · change Good (m.launched \ m.pending.erase t) (addEntityToQueue m.sched t)
      rw [hset]
      exact h.sched.good.add ⟨by simp [htp], hptr, hidles⟩ hidle
    · exact ((Tame.refl m.sched).addEntityToQueue t).aff h.sched.aff
    · change ∀ c < m'.n, ∀ d < m'.n, (addEntityToQueue m.sched t).schedulerIdles c =
        (addEntityToQueue m.sched t).schedulerIdles d → c = d
      rw [hn, ha.keeps.idles]
      exact h.sched.inj
    · change ∀ c < m'.n, (addEntityToQueue m.sched t).schedulerIdles c ≠ _
      rw [hn, ha.keeps.idles]
      exact h.sched.idle
    · exact (erase_subset t m.pending).trans h.sched.sub
    · intro x hx
      change _ ∧ ((addEntityToQueue m.sched t).sched x).isIdle = false ∧
        ∀ c < m'.n, (addEntityToQueue m.sched t).schedulerIdles c ≠ x
      rw [hn, ha.keeps.idles, ha.sched]
      exact h.sched.pend x (mem_of_mem_erase hx)
  refine ⟨h.toFlow.advance_same rfl hn ?_ ha.next (fun d _ => congrFun ha.keeps.running d) ?_
    (fun _ _ => ?_) (h.toFlow.not_unvisited hc hne) (by rw [hp]; rfl) ?_
    (fun t ht d hd hne hd' => hne (h.uniq d hd c hc t hd' ht)) (by simp)
    (fun d hd hne t hp => h.ready d hd t hp c hc (Ne.symm hne)) (fun t ht _ => ht)
    (fun _ _ _ _ h _ => h), h.alive, hs, h.lock.same hc rfl hn rfl ?_ ?_⟩
  · intro d hd hdc x hx
    rw [(hoth d hd hdc).1] at hx
    cases hx
  · refine ⟨?_, ?_, ?_, ?_, ?_, ?_, ?_, ?_, ?_⟩ <;> simp only [pc, hself]
    · rw [hl.live, hp]
      rfl
    · exact (congrFun ha.keeps.running c).trans hl.running
    · exact hl.ptr
    · simp [Pc.target]
    · simp [Pc.isTick]
    · simp [hip]
    · simp [Pc.frontier]
    · simp
    · simp
  · exact (h.settled c hc (by rw [hp]; rfl) hip).resolve_right (h.toFlow.not_unvisited hc hne)
  · intro d _ hu
    rw [hp] at hu
    exact hu.elim
  · simp [CpuState.reads, hp, Pc.reads]
  · rw [hp]
    rfl

/-- What happens outside the CPUs' programs. -/
theorem Inv.outside {m m' : Machine} (h : Inv m) (hcpu : m'.cpu = m.cpu) (hl : m'.lock = m.lock)
    (hw : m'.awaitSave = m.awaitSave) (halive : m'.panicked = m.panicked)
    (hnext : m'.sched.nextTaskToRun = m.sched.nextTaskToRun)
    (hrun : m'.sched.cpuRunning = m.sched.cpuRunning) (hn : m'.n = m.n)
    (hpend : m.pending ⊆ m'.pending) (hs : SchedOk m') : Inv m' := by
  have hu : ∀ d, Unvisited m' d ↔ Unvisited m d := unvisited_congr (by simp only [pc, hcpu])
  refine ⟨⟨fun c hc => ?_, ?_, ?_, ?_, ?_, ?_⟩, halive.trans h.alive, hs, ⟨?_, ?_, ?_, ?_⟩⟩
  · have hl := h.loc c (hn ▸ hc)
    refine ⟨?_, ?_, ?_, ?_, ?_, ?_, ?_, ?_, ?_⟩ <;> simp only [pc, next, hcpu, hnext, hrun, hn]
    exacts [hl.live, hl.running, hl.ptr, hl.target, hl.tick, hl.ipi, hl.front, hl.trigger,
      fun t ht => hpend (hl.add t ht)]
  all_goals simp only [pc, next, hcpu, hnext, hn, hu, hw, hl]
  exacts [h.settled, h.unvisited, h.uniq, h.ready, h.flags, h.lock.readers, h.lock.writers,
    h.lock.waiters, h.lock.excl]

theorem Inv.launch {m : Machine} (h : Inv m) {t : TaskPtr} (ht : Launchable m t) :
    Inv { m with
      sched := m.sched.modify t fun _ => { priority := 0 }
      launched := insert t m.launched
      pending := insert t m.pending } := by
  obtain ⟨-, hnew, hptr, hidle⟩ := ht
  have hidle : ∀ c < m.n, m.sched.schedulerIdles c ≠ t := by simpa using hidle
  have htp : t ∉ m.pending := fun hp => hnew (h.sched.sub hp)
  have hset : insert t m.launched \ insert t m.pending = m.launched \ m.pending := by
    rw [insert_sdiff_insert, sdiff_insert, erase_eq_of_notMem (by simp [hnew])]
  refine h.outside rfl rfl rfl rfl rfl rfl rfl (subset_insert t m.pending)
    ⟨?_, ?_, h.sched.inj, h.sched.idle, insert_subset_insert t h.sched.sub, fun x hx => ?_⟩
  · change Good (insert t m.launched \ insert t m.pending) _
    rw [hset]
    exact h.sched.good.reset ⟨by simp [hnew], hptr, hidle⟩
  · have htame : Tame m.sched (m.sched.modify t fun _ => { priority := 0 }) := by
      refine (Tame.refl m.sched).modify t ?_ fun c hc => ?_
      · exact fun _ _ => rfl
      · cases hc
    exact htame.aff h.sched.aff
  · change x ≠ nullptr ∧ ((m.sched.modify t fun _ => { priority := 0 }).sched x).isIdle = false ∧
      ∀ c < m.n, m.sched.schedulerIdles c ≠ x
    rcases mem_insert.mp hx with rfl | hx
    · exact ⟨hptr, by rw [Sched.modify_sched, Function.update_self], hidle⟩
    · rw [Sched.modify_sched, Function.update_of_ne (ne_of_mem_of_not_mem hx htp)]
      exact h.sched.pend x hx

theorem Inv.flag {m : Machine} (h : Inv m) (t : TaskPtr) (held : Bool) :
    Inv { m with sched := { m.sched.modify t fun b => { b with mutex := held } with
      blockedTaskDirty := true } } := by
  have hg : Good (m.launched \ m.pending) (m.sched.modify t fun b => { b with mutex := held }) :=
    h.sched.good.modify t rfl
  have ht : Tame m.sched (m.sched.modify t fun b => { b with mutex := held }) :=
    (Tame.refl m.sched).modify t (fun _ h => h) fun _ h => .inl h
  refine h.outside rfl rfl rfl rfl rfl rfl rfl subset_rfl
    ⟨⟨hg.once, hg.only, hg.slot, hg.idle, hg.live, hg.count⟩, ht.aff h.sched.aff, h.sched.inj,
      h.sched.idle, h.sched.sub, fun x hx => ?_⟩
  exact ⟨(h.sched.pend x hx).1, ht.idle x (h.sched.pend x hx).2.1, (h.sched.pend x hx).2.2⟩

/-! ### Every run -/

theorem inv_sendStep {m m' : Machine} (h : Inv m) {c : ℕ} (hc : c < m.n) {i : ℕ}
    (hp : m.pc c = .tickSend i) (hs : sendStep m c i = some m') : Inv m' := by
  simp only [sendStep] at hs
  by_cases hi : i < m.n
  · rw [if_pos hi, if_neg (h.loc i hi).ptr, if_neg (h.sched.next_ptr hi)] at hs
    split at hs
    · rename_i hsame
      rw [Option.some.injEq] at hs
      subst hs
      refine h.tickSend_pass hc hp rfl rfl (fun _ => rfl) rfl rfl (fun k hk => ?_) fun d hd hle => ?_
      · have := Option.some.inj hk
        omega
      · rcases Nat.lt_or_eq_of_le hle with hlt | rfl
        · exact .inl ⟨i + 1, rfl, hlt⟩
        · exact .inr hsame
    · split at hs
      · rename_i hl
        rw [Option.some.injEq] at hs
        subst hs
        exact h.tickSend_trigger hc hp hi hl
      · cases hs
  · rw [if_neg hi, Option.some.injEq] at hs
    subst hs
    exact h.tickSend_pass hc hp rfl rfl (fun _ => rfl) rfl rfl (fun k hk => by cases hk)
      fun d hd hle => absurd hd (by omega)

/-- A CPU goes on with the task it has and the lock it holds. -/
theorem Inv.goOn {m : Machine} (h : Inv m) {c : ℕ} (hc : c < m.n) (hne : m.pc c ≠ .running) {p : Pc}
    (hholds : p.holds (m.cpu c).current = (m.pc c).holds (m.cpu c).current)
    (htarget : ∀ t, p.target = some t → m.next c = t) (htick : p.isTick = false)
    (hfr : p.frontier = (m.pc c).frontier) (htrig : ∀ i, p ≠ .tickTrigger i) (hadd : ∀ t, p ≠ .add t)
    (hset : p.settled = false) (hfl : ∀ d, ¬(m.pc c).unflagged d)
    (hready : ∀ t, p = .load t → ∀ d < m.n, d ≠ c → (m.cpu d).live ≠ some t)
    (hreads : p.reads = (m.pc c).reads) (hwrites : p.writes = (m.pc c).writes) : Inv (m.goto c p) := by
  have hflow : Flow (m.goto c p) := by
    refine h.toFlow.goto hc rfl rfl rfl (h.toFlow.ipi_false hc hne) (h.toFlow.not_unvisited hc hne) hholds htarget
      ?_ hfr ?_ ?_ ?_ ?_ hready fun _ ht => ht
    · exact fun ht => absurd (htick.symm.trans ht) (by simp)
    · exact fun i hi => absurd hi (htrig i)
    · exact fun t ht => absurd ht (hadd t)
    · exact fun hs => absurd (hset.symm.trans hs) (by simp)
    · exact fun d _ hd => absurd hd (hfl d)
  exact ⟨hflow, h.alive, h.sched.congr rfl rfl rfl, h.lock.same hc rfl rfl rfl (by simp [CpuState.reads, hreads])
    hwrites⟩

/-- The steps of the CPUs keep the invariant. -/
theorem inv_cpuStep {m m' : Machine} (h : Inv m) {c : ℕ} (hc : c < m.n)
    (hs : m.cpuStep c = some m') : Inv m' := by
  have hl := h.loc c hc
  have hlive := hl.live
  unfold cpuStep at hs
  cases hp : m.pc c with
  | running => simp [show (m.cpu c).pc = _ from hp] at hs
  | tickReschedule =>
    obtain ⟨s, h1, h2⟩ := h.tickReschedule hc hp
    simp only [show (m.cpu c).pc = _ from hp, h1, Option.some.injEq] at hs
    exact hs ▸ h2
  | tickDowngrade =>
    simp only [show (m.cpu c).pc = _ from hp, Option.some.injEq] at hs
    exact hs ▸ h.tickDowngrade hc hp
  | tickFlag i =>
    simp only [show (m.cpu c).pc = _ from hp] at hs
    split at hs
    · rename_i hi
      rw [if_neg (h.loc i hi).ptr, Option.some.injEq] at hs
      exact hs ▸ h.tickFlag hc hp hi
    · rename_i hi
      rw [Option.some.injEq] at hs
      exact hs ▸ h.tickFlag_done hc hp hi
  | tickSend i =>
    simp only [show (m.cpu c).pc = _ from hp] at hs
    exact inv_sendStep h hc hp hs
  | tickTrigger i =>
    simp only [show (m.cpu c).pc = _ from hp, Option.some.injEq] at hs
    exact hs ▸ h.tickTrigger hc hp
  | save =>
    simp only [show (m.cpu c).pc = _ from hp, Option.some.injEq] at hs
    rw [hp] at hlive
    exact hs ▸ h.saveIn hc hlive (by simp [hp]) (by rw [hp]; rfl) (by simp [hp, Pc.unflagged])
      (by rw [hp]; rfl) (by rw [hp]; rfl) (fun _ => rfl) rfl rfl rfl (by simp [Pc.settled])
  | select =>
    simp only [show (m.cpu c).pc = _ from hp, h.sched.nextTaskSelect_eq hc, Option.some.injEq] at hs
    exact hs ▸ h.goOn hc (by simp [hp]) (by rw [hp]; rfl) (fun t ht => Option.some.inj ht) rfl (by rw [hp]; rfl)
      (by simp) (by simp) rfl (by simp [hp, Pc.unflagged]) (by simp) (by rw [hp]; rfl) (by rw [hp]; rfl)
  | wait t =>
    simp only [show (m.cpu c).pc = _ from hp] at hs
    split at hs
    · cases hs
    · rename_i hw
      rw [Option.some.injEq] at hs
      rw [← hs]
      apply h.goOn hc (by simp [hp]) (by rw [hp]; rfl) (fun x hx => hl.target x (by rw [hp]; exact hx)) rfl
        (by rw [hp]; rfl) (by simp) (by simp) rfl (by simp [hp, Pc.unflagged]) ?_ (by rw [hp]; rfl) (by rw [hp]; rfl)
      intro x hx d hd hdc
      injection hx with hx
      subst hx
      exact h.not_live_elsewhere hc hp (by simpa using hw) hd hdc
  | load t =>
    simp only [show (m.cpu c).pc = _ from hp, Option.some.injEq] at hs
    exact hs ▸ h.loadTo hc (hl.target t (by rw [hp]; rfl)) (by simp [hp]) (h.ready c hc t hp)
      (by rw [hp]; rfl) (by simp [hp, Pc.unflagged]) (by rw [hp]; rfl) (by rw [hp]; rfl)
      (fun _ => rfl) rfl rfl rfl rfl
  | setCurrent t =>
    simp only [show (m.cpu c).pc = _ from hp, Option.some.injEq] at hs
    rw [hp] at hlive
    exact hs ▸ h.setCurrentTask hc (by rw [hp]; rfl) hlive (by simp [hp]) (by rw [hp]; rfl)
      (by simp [hp, Pc.unflagged]) (by rw [hp]; rfl) (by rw [hp]; rfl) (fun _ => rfl) rfl rfl rfl
      (by simp)
  | readRelease =>
    simp only [show (m.cpu c).pc = _ from hp, Option.some.injEq] at hs
    exact hs ▸ h.readRelease hc hp
  | softSave =>
    simp only [show (m.cpu c).pc = _ from hp, Option.some.injEq] at hs
    have hne : m.pc c ≠ .running := by simp [hp]
    have hset := (h.settled c hc (by rw [hp]; rfl) (h.toFlow.ipi_false hc hne)).resolve_right
      (h.toFlow.not_unvisited hc hne)
    rw [hp] at hlive
    exact hs ▸ h.saveIn hc hlive hne (by rw [hp]; rfl) (by simp [hp, Pc.unflagged])
      (by rw [hp]; rfl) (by rw [hp]; rfl) (fun _ => rfl) rfl rfl rfl (fun _ => hset)
  | softReschedule =>
    obtain ⟨s, h1, h2⟩ := h.softReschedule hc hp
    simp only [show (m.cpu c).pc = _ from hp, h1, Option.some.injEq] at hs
    exact hs ▸ h2
  | softSelect =>
    simp only [show (m.cpu c).pc = _ from hp, h.sched.nextTaskSelect_eq hc] at hs
    split at hs
    · rename_i he
      rw [Option.some.injEq] at hs
      exact hs ▸ h.softSelect_same hc hp he.2
    · rw [Option.some.injEq] at hs
      exact hs ▸ h.goOn hc (by simp [hp]) (by rw [hp]; rfl) (fun t ht => Option.some.inj ht) rfl (by rw [hp]; rfl)
        (by simp) (by simp) rfl (by simp [hp, Pc.unflagged]) (by simp) (by rw [hp]; rfl) (by rw [hp]; rfl)
  | softLoad t =>
    simp only [show (m.cpu c).pc = _ from hp, Option.some.injEq] at hs
    have hnext := hl.target t (by rw [hp]; rfl)
    refine hs ▸ h.loadTo hc hnext (by simp [hp]) (fun d hd hdc => ?_)
      (by rw [hp]; rfl) (by simp [hp, Pc.unflagged]) (by rw [hp]; rfl) (by rw [hp]; rfl)
      (fun _ => rfl) rfl rfl rfl rfl
    rw [(h.others_settled hc (by rw [hp]; rfl) (by rw [hp]; rfl) hd hdc).2.1, ← hnext]
    exact fun he => h.sched.slots_ne hd hc hdc (Option.some.inj he)
  | softSetCurrent t =>
    simp only [show (m.cpu c).pc = _ from hp, Option.some.injEq] at hs
    rw [hp] at hlive
    exact hs ▸ h.setCurrentTask hc (by rw [hp]; rfl) hlive (by simp [hp]) (by rw [hp]; rfl)
      (by simp [hp, Pc.unflagged]) (by rw [hp]; rfl) (by rw [hp]; rfl) (fun _ => rfl) rfl rfl rfl
      (by simp)
  | writeRelease =>
    simp only [show (m.cpu c).pc = _ from hp, Option.some.injEq] at hs
    exact hs ▸ h.writeRelease hc hp
  | add t =>
    simp only [show (m.cpu c).pc = _ from hp, Option.some.injEq] at hs
    exact hs ▸ h.add hc hp

theorem inv_acquire {m m' : Machine} (h : Inv m) {c : ℕ} {p : Pc} (hr : p.reads = 0)
    (hw : p.writes = 1) (hholds : ∀ x, p.holds x = some x) (ht : p.target = none)
    (htick : p.isTick = false) (hfr : p.frontier = none) (hadd : ∀ t, p = .add t → t ∈ m.pending)
    (hs : m.acquire c p = some m') : Inv m' := by
  unfold acquire at hs
  split at hs
  · rename_i hcond
    rw [Option.some.injEq] at hs
    exact hs ▸ h.writeAcquire hcond.1 hcond.2.2 hr hw hholds ht (by simp [htick]) hfr hadd
  · cases hs

/-- **One step.** Whatever happens next keeps the invariant. -/
theorem inv_step {m m' : Machine} {a : Action} (h : Inv m) (hs : m.step a = some m') : Inv m' := by
  unfold Machine.step at hs
  rw [if_neg (by simp [h.alive])] at hs
  cases a with
  | tick =>
    simp only at hs
    split at hs
    · rename_i hcond
      rw [Option.some.injEq, enter, if_pos rfl] at hs
      split at hs
      · rename_i hfree
        exact hs ▸ h.writeAcquire hcond.1 hfree rfl rfl (fun _ => rfl) rfl (fun _ => rfl) rfl (by simp)
      · exact hs ▸ h
    · cases hs
  | deliver c =>
    simp only at hs
    split at hs
    · rename_i hcond
      rw [Option.some.injEq] at hs
      exact hs ▸ h.deliver hcond.1 hcond.2.2
    · cases hs
  | block c => exact inv_acquire h rfl rfl (fun _ => rfl) rfl rfl rfl (by simp) hs
  | disable c => exact inv_acquire h rfl rfl (fun _ => rfl) rfl rfl rfl (by simp) hs
  | launch t =>
    simp only at hs
    split at hs
    · rename_i ht
      rw [Option.some.injEq] at hs
      exact hs ▸ h.launch ht
    · cases hs
  | acquire c t =>
    simp only at hs
    split at hs
    · rename_i ht
      refine inv_acquire h rfl rfl (fun _ => rfl) rfl rfl rfl (fun x hx => ?_) hs
      injection hx with hx
      exact hx ▸ ht
    · cases hs
  | flag t held =>
    simp only [Option.some.injEq] at hs
    exact hs ▸ h.flag t held
  | cpu c =>
    simp only at hs
    split at hs
    · rename_i hc
      exact inv_cpuStep h hc hs
    · cases hs

/-- The slots, the queues and the blocked list are the same. -/
structure SameQueues (m m' : Machine) : Prop where
  next : m'.sched.nextTaskToRun = m.sched.nextTaskToRun
  queues : m'.sched.taskQueues = m.sched.taskQueues
  blocked : m'.sched.blockedTasks = m.sched.blockedTasks

theorem SameQueues.of_eq {m m' : Machine} (h : m'.sched = m.sched) : SameQueues m m' :=
  ⟨by rw [h], by rw [h], by rw [h]⟩

theorem acquire_sameQueues {m m' : Machine} {c : CoreId} {p : Pc} (hs : m.acquire c p = some m') :
    SameQueues m m' := by
  unfold acquire at hs
  split at hs
  · exact .of_eq (Option.some.inj hs ▸ rfl)
  · cases hs

theorem withLock_goto_sched (m : Machine) (l : Option (RWLock ℤ)) (c : CoreId) (p : Pc) :
    (withLock m l fun m => m.goto c p).sched = m.sched := by
  cases l <;> rfl

theorem saveIn_sched (m : Machine) (c : CoreId) (p : Pc) : (saveIn m c p).sched = m.sched := by
  unfold saveIn
  simp only
  split <;> rfl

/-- A CPU that is not a writer leaves them. -/
theorem cpuStep_sameQueues {m m' : Machine} {c : CoreId} (hw : (m.pc c).writes = 0)
    (hs : m.cpuStep c = some m') : SameQueues m m' := by
  unfold cpuStep at hs
  cases hp : m.pc c with
  | running => simp [show (m.cpu c).pc = _ from hp] at hs
  | tickReschedule | tickDowngrade | softSave | softReschedule | softSelect | softLoad t
  | softSetCurrent t | writeRelease | add t =>
    rw [hp] at hw
    cases hw
  | tickFlag i =>
    simp only [show (m.cpu c).pc = _ from hp] at hs
    split at hs
    · rw [Option.some.injEq] at hs
      subst hs
      split <;> exact .of_eq rfl
    · exact .of_eq (Option.some.inj hs ▸ rfl)
  | tickSend i =>
    simp only [show (m.cpu c).pc = _ from hp, sendStep] at hs
    split_ifs at hs <;> exact .of_eq (Option.some.inj hs ▸ rfl)
  | tickTrigger i | load t =>
    simp only [show (m.cpu c).pc = _ from hp] at hs
    exact .of_eq (Option.some.inj hs ▸ rfl)
  | wait t =>
    simp only [show (m.cpu c).pc = _ from hp] at hs
    split at hs
    · cases hs
    · exact .of_eq (Option.some.inj hs ▸ rfl)
  | save =>
    simp only [show (m.cpu c).pc = _ from hp, Option.some.injEq] at hs
    exact .of_eq (hs ▸ saveIn_sched m c _)
  | select =>
    simp only [show (m.cpu c).pc = _ from hp] at hs
    split at hs <;> exact .of_eq (Option.some.inj hs ▸ rfl)
  | setCurrent t =>
    simp only [show (m.cpu c).pc = _ from hp, Option.some.injEq] at hs
    exact hs ▸ ⟨rfl, rfl, rfl⟩
  | readRelease =>
    simp only [show (m.cpu c).pc = _ from hp, Option.some.injEq] at hs
    exact .of_eq (hs ▸ withLock_goto_sched m _ c _)

/-- Only the step of a writer changes the slots, the queues or the blocked
list. -/
theorem step_sameQueues {m m' : Machine} {a : Action} (hs : m.step a = some m') :
    SameQueues m m' ∨ ∃ c < m.n, a = .cpu c ∧ (m.pc c).writes ≠ 0 := by
  unfold Machine.step at hs
  split at hs
  · cases hs
  cases a with
  | tick =>
    simp only [enter] at hs
    split_ifs at hs <;> exact .inl (.of_eq (Option.some.inj hs ▸ rfl))
  | deliver c =>
    simp only [enter] at hs
    split_ifs at hs <;> exact .inl (.of_eq (Option.some.inj hs ▸ rfl))
  | block c => exact .inl (acquire_sameQueues hs)
  | disable c => exact .inl (acquire_sameQueues hs)
  | launch t =>
    simp only at hs
    split at hs
    · exact .inl (Option.some.inj hs ▸ ⟨rfl, rfl, rfl⟩)
    · cases hs
  | acquire c t =>
    simp only at hs
    split at hs
    · exact .inl (acquire_sameQueues hs)
    · cases hs
  | flag t held => exact .inl (Option.some.inj hs ▸ ⟨rfl, rfl, rfl⟩)
  | cpu c =>
    simp only at hs
    split at hs
    · rename_i hc
      by_cases hw : (m.pc c).writes = 0
      · exact .inl (cpuStep_sameQueues hw hs)
      · exact .inr ⟨c, hc, rfl, hw⟩
    · cases hs

/-- CPU `c` is between an acquire of the lock, made by it or for it, and its
release. -/
def HoldsLock (m : Machine) (c : CoreId) : Prop := (m.cpu c).reads ≠ 0 ∨ (m.pc c).writes ≠ 0

/-- The step is `load_to` of task `t` on CPU `c`. -/
def Loads (m : Machine) (a : Action) (c : CoreId) (t : TaskPtr) : Prop :=
  a = .cpu c ∧ c < m.n ∧ (m.pc c = .load t ∨ m.pc c = .softLoad t)

/-- What is promised of a step `a` from `m` to `m'`. -/
structure Safe (m : Machine) (a : Action) (m' : Machine) : Prop where
  /-- a context is loaded only when every other CPU has saved it since it had
  it, and does not run it -/
  handover : ∀ c t, Loads m a c t → ∀ d < m.n, d ≠ c →
    (m.cpu d).live ≠ some t ∧ (m.pc d = .running → (m.cpu d).current ≠ t)
  /-- the slots and the queues change only while nobody else holds the lock -/
  exclusive : ¬ SameQueues m m' →
    ∃ c < m.n, a = .cpu c ∧ HoldsLock m c ∧ ∀ d < m.n, d ≠ c → ¬ HoldsLock m d
  /-- every release has its acquire: the counters are what the CPUs hold -/
  readers : m'.lock.readers = (∑ c ∈ range m'.n, (m'.cpu c).reads : ℕ)
  writers : m'.lock.writers = (∑ c ∈ range m'.n, (m'.pc c).writes : ℕ)
  nonneg : 0 ≤ m'.lock.readers ∧ 0 ≤ m'.lock.writers ∧ 0 ≤ m'.lock.waiters
  /-- no `unreachable$` -/
  alive : m'.panicked = false

/-- A context about to be loaded is in no other CPU's registers. -/
theorem Inv.loads_free {m : Machine} (h : Inv m) {a : Action} {c : ℕ} {t : TaskPtr}
    (hl : Loads m a c t) {d : ℕ} (hd : d < m.n) (hdc : d ≠ c) : (m.cpu d).live ≠ some t := by
  obtain ⟨-, hc, hp | hp⟩ := hl
  · exact h.ready c hc t hp d hd hdc
  · have hnext := (h.loc c hc).target t (by rw [hp]; rfl)
    rw [(h.others_settled hc (by rw [hp]; rfl) (by rw [hp]; rfl) hd hdc).2.1, ← hnext]
    exact fun he => h.sched.slots_ne hd hc hdc (Option.some.inj he)

theorem safe_of_inv {m m' : Machine} {a : Action} (h : Inv m) (hs : m.step a = some m') :
    Safe m a m' := by
  have h' := inv_step h hs
  refine ⟨fun c t hl d hd hdc => ⟨h.loads_free hl hd hdc, fun hrun he => ?_⟩, fun hne => ?_,
    h'.lock.readers, h'.lock.writers, ?_, h'.alive⟩
  · refine h.loads_free hl hd hdc ?_
    rw [(h.loc d hd).live, hrun, ← he]
    rfl
  · obtain ⟨c, hc, ha, hw⟩ := (step_sameQueues hs).resolve_left hne
    refine ⟨c, hc, ha, .inr hw, fun d hd hdc hhold => ?_⟩
    have hw1 : (m.pc c).writes = 1 := by
      cases hp : m.pc c <;> simp [hp, Pc.writes] at hw ⊢
    obtain ⟨-, -, hoth⟩ := h.lock.others_running hc hw1
    obtain ⟨hrun, hip⟩ := hoth d hd hdc
    simp [HoldsLock, CpuState.reads, hrun, hip] at hhold
  · have h1 := h'.lock.readers
    have h2 := h'.lock.writers
    have h3 := h'.lock.waiters
    omega

/-- The start: any queues and any tasks on the CPUs, every CPU outside the
scheduler and running the task chosen for it. -/
structure Init (m : Machine) : Prop where
  alive : m.panicked = false
  good : Good m.launched m.sched
  aff : AffOk m.sched
  inj : ∀ c < m.n, ∀ d < m.n, m.sched.schedulerIdles c = m.sched.schedulerIdles d → c = d
  idle : ∀ c < m.n, m.sched.schedulerIdles c ≠ nullptr
  pending : m.pending = ∅
  lock : m.lock = {}
  cpus : ∀ c < m.n, m.cpu c = { current := m.next c, live := some (m.next c) } ∧
    m.sched.cpuRunning c = m.next c

theorem Init.inv {m : Machine} (h : Init m) : Inv m := by
  have hs : SchedOk m := by
    refine ⟨?_, h.aff, h.inj, h.idle, by simp [h.pending], by simp [h.pending]⟩
    rw [h.pending, sdiff_empty]
    exact h.good
  have hrun : ∀ c < m.n, m.pc c = .running := fun c hc => by rw [pc, (h.cpus c hc).1]
  have hvis : ∀ c < m.n, ¬ Unvisited m c := fun c hc ⟨k, hk, _⟩ => by
    rw [hrun 0 (Nat.zero_lt_of_lt hc)] at hk
    cases hk
  refine ⟨⟨fun c hc => ?_, fun c hc _ _ => .inl (by rw [(h.cpus c hc).1]), fun c hc hu => absurd hu (hvis c hc),
    fun c hc d hd t h1 h2 => ?_, fun c hc t ht => ?_, fun d hd t ht hne => ?_⟩, h.alive, hs, ?_⟩
  · have hr := hrun c hc
    refine ⟨?_, ?_, ?_, ?_, ?_, ?_, ?_, ?_, ?_⟩
    · rw [hr, (h.cpus c hc).1]
      rfl
    · rw [(h.cpus c hc).2, (h.cpus c hc).1]
    · rw [(h.cpus c hc).1]
      exact hs.next_ptr hc
    all_goals simp [hr, Pc.target, Pc.isTick, Pc.frontier, (h.cpus c hc).1]
  · rw [(h.cpus c hc).1] at h1
    rw [(h.cpus d hd).1] at h2
    by_contra hne
    exact hs.slots_ne hc hd hne (Option.some.inj (h1.trans h2.symm))
  · rw [hrun c hc] at ht
    cases ht
  · rw [(h.cpus d hd).1] at ht
    exact absurd (Option.some.inj ht) hne
  · refine ⟨?_, ?_, by rw [h.lock], by simp [h.lock]⟩
    · rw [h.lock, sum_eq_zero fun c hc => ?_]
      · rfl
      · rw [(h.cpus c (mem_range.mp hc)).1]
        rfl
    · rw [h.lock, sum_eq_zero fun c hc => ?_]
      · rfl
      · rw [hrun c (mem_range.mp hc)]
        rfl

/-- **Contexts are handed over safely.** Whatever the number of CPUs, the
queues at the start and the order of the steps. -/
theorem handover_safe {m₀ m m' : Machine} (h0 : Init m₀) (as : List Action)
    (hrun : Lib.run Machine.step as m₀ = some m) {a : Action} (hs : m.step a = some m') :
    Safe m a m' :=
  safe_of_inv (Lib.run_invariant (P := Inv) (fun _ _ _ h hs => inv_step h hs) h0.inv hrun) hs

theorem init_booted (n : ℕ) {u : TaskPtr} (hu : u ≠ nullptr) (ts : List TaskPtr) :
    Init (booted n u ts) where
  alive := rfl
  good := good_schedulerInit n ts
  aff t c hc := by
    simp only [booted, schedulerInit] at hc
    split at hc <;> cases hc
  inj _ _ _ _ he := Nat.add_left_cancel he
  idle c _ := fun h => hu (Nat.eq_zero_of_add_eq_zero_right h)
  pending := rfl
  lock := rfl
  cpus _ _ := ⟨rfl, rfl⟩

/-- Task 1 is launched, a tick gives it to CPU 1, which takes the interrupt,
waits for nothing and loads it. -/
theorem handover_safe_two_cpus :
    ∃ m m', Lib.run Machine.step [.launch 1, .acquire 0 1, .cpu 0, .cpu 0, .tick, .cpu 0, .cpu 0,
        .cpu 0, .cpu 0, .cpu 0, .cpu 0, .cpu 0, .deliver 1, .cpu 1, .cpu 1, .cpu 1]
        (booted 2 10 [1]) = some m ∧
      m.step (.cpu 1) = some m' ∧ m.pc 1 = .load 1 ∧ Safe m (.cpu 1) m' := by
  have h : ((Lib.run Machine.step [.launch 1, .acquire 0 1, .cpu 0, .cpu 0, .tick, .cpu 0, .cpu 0,
      .cpu 0, .cpu 0, .cpu 0, .cpu 0, .cpu 0, .deliver 1, .cpu 1, .cpu 1, .cpu 1]
      (booted 2 10 [1])).bind fun m => if m.pc 1 = .load 1 then m.step (.cpu 1) else none).isSome =
        true := by decide +kernel
  obtain ⟨m', hm'⟩ := Option.isSome_iff_exists.mp h
  obtain ⟨m, hm, hm'⟩ := Option.bind_eq_some_iff.mp hm'
  split at hm'
  · rename_i hp
    exact ⟨m, m', hm, hm', hp, handover_safe (init_booted 2 (by decide) [1]) _ hm hm'⟩
  · cases hm'

end Handover
end WingOS
