/-
# Threads on a reader-writer lock

Any number of threads that run any programs on one `fc::RWLock`
(`libcore/lock/rwlock.hpp`). A step is a section under `_access_lock`, the
decrement of `read_release`, or its test after that; so an acquire takes one
step for each round of its loop, and others may run in between. A thread
releases what it holds only; it may hold the lock more than once and may start
an acquire while it holds it.

The counters of the lock are what the threads make of them (`Safe`): the
writers and the readers are those that hold it, and the waiters are the threads
inside an attempt to write. They are of type `int`, so this goes as far as no
step counts up from the last `int` (`Roomy`): after 2^31 acquires to read the
lock has fewer than no readers (`rwlock_overflows`).

Key definitions: `Place`, `LockRun`, `LockRun.step`, `LockRun.Safe`, `LockRun.Roomy`.
Key theorems: `safe_step_iff`, `rwlock_safe_iff`.
-/
import WingOS.RWLock
import WingOS.Lib.MachineInt
import WingOS.Lib.Run
import WingOS.Lib.Sums

namespace WingOS

open Lib (toInt_succ toInt_pred)

namespace RWLock

variable {l : RWLock Int32}

/-- The first section of an attempt to write. -/
def announce (l : RWLock Int32) : RWLock Int32 := { l with waiters := l.waiters + 1 }

/-- The section that ends an attempt which has found the lock free. -/
def takeWrite (l : RWLock Int32) : RWLock Int32 :=
  { l with writers := l.writers + 1, waiters := l.waiters - 1 }

/-- The last section of a `try_write_acquire` that gives up. -/
def withdraw (l : RWLock Int32) : RWLock Int32 := { l with waiters := l.waiters - 1 }

theorem not_neg {c : Int32} (h : 0 ≤ c.toInt) : ¬ c < 0 := by
  rw [Int32.lt_iff_toInt_lt, Int32.toInt_zero]
  omega

theorem releaseMutability_of_held (h : l.writers.toInt = 1) : l.releaseMutability =
    some { l with writers := l.writers - 1, readers := l.readers + 1 } :=
  if_neg (not_neg (by rw [toInt_pred (by omega)]; omega))

theorem writeRelease_of_held (h : l.writers.toInt = 1) : l.writeRelease =
    some { l with writers := l.writers - 1 } :=
  if_neg (not_neg (by rw [toInt_pred (by omega)]; omega))

end RWLock

/-- Where a thread stands. -/
inductive Place
  | outside
  /-- in the loop of `write_acquire` -/
  | writing
  /-- in the loop of `try_write_acquire`, with `retry` -/
  | trying (retry : Int32)
  /-- `retry` is 0, `_waiters` is still to be lowered -/
  | givingUp
  /-- in the loop of `read_acquire` -/
  | reading
  /-- after the decrement in `read_release` -/
  | released
  /-- at `unreachable$` -/
  | trapped

/-- Inside an attempt to write. -/
def Place.waits : Place → ℕ
  | .writing | .trying _ | .givingUp => 1
  | _ => 0

/-- `writes` and `reads` say how often the thread holds each side. -/
structure LockThread where
  place : Place := .outside
  writes : ℕ := 0
  reads : ℕ := 0

/-- The lock and the threads on it. -/
structure LockRun (T : Type*) where
  lock : RWLock Int32 := {}
  thread : T → LockThread := fun _ => {}

/-- `busy` says if `try_lock` finds the lock of the counters taken. -/
inductive LockCall
  | writeAcquire
  | tryWriteAcquire (retry : Int32) (busy : Bool)
  | releaseMutability
  | writeRelease
  | readAcquire
  | readRelease

inductive LockAction
  | start (call : LockCall)
  | go

namespace LockRun

variable {T : Type*} [DecidableEq T]

def set (s : LockRun T) (i : T) (t : LockThread) (lock : RWLock Int32) : LockRun T where
  lock
  thread := Function.update s.thread i t

/-- A call, up to the end of its first section; for an acquire to read, which
has none before its loop, up to the loop. -/
def start (s : LockRun T) (i : T) : LockCall → Option (LockRun T)
  | .writeAcquire => some (s.set i { s.thread i with place := .writing } s.lock.announce)
  | .tryWriteAcquire retry busy =>
    if busy then some s
    else some (s.set i { s.thread i with place := .trying retry } s.lock.announce)
  | .releaseMutability =>
    if (s.thread i).writes = 0 then none
    else
      match s.lock.releaseMutability with
      | none => some (s.set i { s.thread i with place := .trapped } s.lock)
      | some lock => some (s.set i { s.thread i with
          writes := (s.thread i).writes - 1, reads := (s.thread i).reads + 1 } lock)
  | .writeRelease =>
    if (s.thread i).writes = 0 then none
    else
      match s.lock.writeRelease with
      | none => some (s.set i { s.thread i with place := .trapped } s.lock)
      | some lock => some (s.set i { s.thread i with writes := (s.thread i).writes - 1 } lock)
  | .readAcquire => some (s.set i { s.thread i with place := .reading } s.lock)
  | .readRelease =>
    if (s.thread i).reads = 0 then none
    else some (s.set i { s.thread i with place := .released, reads := (s.thread i).reads - 1 }
      { s.lock with readers := s.lock.readers - 1 })

/-- The next section of a call. -/
def go (s : LockRun T) (i : T) : Option (LockRun T) :=
  match (s.thread i).place with
  | .outside | .trapped => none
  | .writing =>
    if s.lock.free then
      some (s.set i { s.thread i with place := .outside, writes := (s.thread i).writes + 1 }
        s.lock.takeWrite)
    else some s
  | .trying retry =>
    if s.lock.free then
      some (s.set i { s.thread i with place := .outside, writes := (s.thread i).writes + 1 }
        s.lock.takeWrite)
    else
      some (s.set i { s.thread i with
        place := if retry - 1 = 0 then .givingUp else .trying (retry - 1) } s.lock)
  | .givingUp => some (s.set i { s.thread i with place := .outside } s.lock.withdraw)
  | .reading =>
    if s.lock.readable then
      some (s.set i { s.thread i with place := .outside, reads := (s.thread i).reads + 1 }
        s.lock.readAcquire)
    else some s
  | .released =>
    some (s.set i { s.thread i with place := if s.lock.readers < 0 then .trapped else .outside } s.lock)

/-- A step of the thread `i`; `none` when it cannot take it. -/
def step (s : LockRun T) (op : T × LockAction) : Option (LockRun T) :=
  match op.2 with
  | .start call =>
    match (s.thread op.1).place with
    | .outside => s.start op.1 call
    | _ => none
  | .go => s.go op.1

/-- The counter that the step raises. `_writers`, and `_readers` in `release_mutability`,
are raised from 0 only. -/
def raises (s : LockRun T) (op : T × LockAction) : Option Int32 :=
  match op.2, (s.thread op.1).place with
  | .start .writeAcquire, _ => some s.lock.waiters
  | .start (.tryWriteAcquire _ false), _ => some s.lock.waiters
  | .go, .reading => if s.lock.readable then some s.lock.readers else none
  | _, _ => none

/-- The step does not count up from the last `int`. -/
def Roomy (s : LockRun T) (op : T × LockAction) : Prop := s.raises op ≠ some Int32.maxValue

instance (s : LockRun T) (op : T × LockAction) : Decidable (s.Roomy op) := inferInstanceAs (Decidable (_ ≠ _))

/-! ### Safety -/

variable [Fintype T]

def total (s : LockRun T) (g : LockThread → ℕ) : ℕ := ∑ i, g (s.thread i)

/-- **The lock is safe**: at most one holder writes, none reads meanwhile, the
counters are right, and no thread is at `unreachable$`. -/
structure Safe (s : LockRun T) : Prop where
  one_writer : s.total LockThread.writes ≤ 1
  exclusive : s.total LockThread.writes = 0 ∨ s.total LockThread.reads = 0
  writers : s.lock.writers.toInt = s.total LockThread.writes
  readers : s.lock.readers.toInt = s.total LockThread.reads
  waiters : s.lock.waiters.toInt = s.total fun t => t.place.waits
  running : ∀ i, (s.thread i).place ≠ .trapped

variable {s s' : LockRun T} {i : T}

theorem total_set (s : LockRun T) (i : T) (t : LockThread) (lock : RWLock Int32) (g : LockThread → ℕ) :
    (s.set i t lock).total g + g (s.thread i) = s.total g + g t :=
  Lib.sum_update_add Finset.univ s.thread g (Finset.mem_univ i) t

omit [DecidableEq T] in
theorem le_total (s : LockRun T) (i : T) (g : LockThread → ℕ) : g (s.thread i) ≤ s.total g :=
  Finset.single_le_sum (f := fun j => g (s.thread j)) (fun _ _ => Nat.zero_le _) (Finset.mem_univ i)

/-- One thread moves, and the counters of the lock move with it. -/
theorem Safe.set (h : s.Safe) {t : LockThread} {lock : RWLock Int32}
    (hwriters : lock.writers.toInt + (s.thread i).writes = s.lock.writers.toInt + t.writes)
    (hreaders : lock.readers.toInt + (s.thread i).reads = s.lock.readers.toInt + t.reads)
    (hwaiters : lock.waiters.toInt + (s.thread i).place.waits = s.lock.waiters.toInt + t.place.waits)
    (hone : lock.writers.toInt ≤ 1) (hexclusive : lock.writers.toInt = 0 ∨ lock.readers.toInt = 0)
    (hrunning : t.place ≠ .trapped) : (s.set i t lock).Safe := by
  have hw := s.total_set i t lock LockThread.writes
  have hr := s.total_set i t lock LockThread.reads
  have ha := s.total_set i t lock fun t => t.place.waits
  have hw₀ := h.writers
  have hr₀ := h.readers
  have ha₀ := h.waiters
  have hlw : lock.writers.toInt = (s.set i t lock).total LockThread.writes := by omega
  have hlr : lock.readers.toInt = (s.set i t lock).total LockThread.reads := by omega
  refine ⟨by omega, by omega, hlw, hlr, ?_, fun j => ?_⟩
  · change lock.waiters.toInt = _
    omega
  · by_cases hj : j = i
    · rw [hj]
      change (Function.update s.thread i t i).place ≠ _
      rw [Function.update_self]
      exact hrunning
    · change (Function.update s.thread i t j).place ≠ _
      rw [Function.update_of_ne hj]
      exact h.running j

omit [DecidableEq T] in
/-- A thread that holds the write side is the only holder. -/
theorem Safe.holds_write (h : s.Safe) (hi : (s.thread i).writes ≠ 0) :
    s.lock.writers.toInt = 1 ∧ s.lock.readers.toInt = 0 ∧ (s.thread i).writes = 1 := by
  have hle := s.le_total i LockThread.writes
  have hone := h.one_writer
  have hexclusive := h.exclusive
  have hw := h.writers
  have hr := h.readers
  omega

omit [DecidableEq T] in
/-- A thread that holds the read side keeps writers out. -/
theorem Safe.holds_read (h : s.Safe) (hi : (s.thread i).reads ≠ 0) :
    s.lock.writers.toInt = 0 ∧ 1 ≤ s.lock.readers.toInt := by
  have hle := s.le_total i LockThread.reads
  have hexclusive := h.exclusive
  have hw := h.writers
  have hr := h.readers
  omega

omit [DecidableEq T] in
theorem Safe.bounds (h : s.Safe) : s.lock.writers.toInt ≤ 1 ∧
    (s.lock.writers.toInt = 0 ∨ s.lock.readers.toInt = 0) ∧ 0 ≤ s.lock.readers.toInt := by
  have hone := h.one_writer
  have hexclusive := h.exclusive
  have hw := h.writers
  have hr := h.readers
  omega

omit [DecidableEq T] in
/-- A thread inside an attempt is counted. -/
theorem Safe.waiting (h : s.Safe) (hi : (s.thread i).place.waits = 1) : 1 ≤ s.lock.waiters.toInt := by
  have hle := s.le_total i fun t => t.place.waits
  have ha := h.waiters
  omega

/-- An attempt to write is announced. -/
theorem safe_announce (h : s.Safe) (hplace : (s.thread i).place = .outside) {place : Place}
    (hwaits : place.waits = 1) (hroom : s.lock.waiters ≠ Int32.maxValue) (hrunning : place ≠ .trapped) :
    (s.set i { s.thread i with place } s.lock.announce).Safe := by
  have hbounds := h.bounds
  refine h.set rfl rfl ?_ hbounds.1 hbounds.2.1 hrunning
  have hcount : s.lock.announce.waiters.toInt = s.lock.waiters.toInt + 1 := by
    change (s.lock.waiters + 1).toInt = _
    rw [toInt_succ, if_neg hroom]
  have houtside : (s.thread i).place.waits = 0 := by
    rw [hplace]
    rfl
  rw [hcount, houtside, hwaits]
  omega

theorem safe_start (h : s.Safe) {call : LockCall} (hplace : (s.thread i).place = .outside)
    (hroom : s.Roomy (i, .start call)) (hs : s.start i call = some s') : s'.Safe := by
  have hbounds := h.bounds
  have hwaits : (s.thread i).place.waits = 0 := by
    rw [hplace]
    rfl
  cases call with
  | writeAcquire =>
    cases hs
    exact safe_announce h hplace rfl (fun heq => hroom (congrArg some heq)) nofun
  | tryWriteAcquire retry busy =>
    cases busy with
    | true =>
      cases hs
      exact h
    | false =>
      cases hs
      exact safe_announce h hplace rfl (fun heq => hroom (congrArg some heq)) nofun
  | releaseMutability =>
    dsimp only [start] at hs
    obtain ⟨hzero, hs⟩ := Option.ite_none_left_eq_some.mp hs
    obtain ⟨hw, hr, hi⟩ := h.holds_write hzero
    rw [RWLock.releaseMutability_of_held hw] at hs
    cases hs
    have hwriters : (s.lock.writers - 1).toInt = 0 := by
      rw [toInt_pred (by omega)]
      omega
    have hreaders : (s.lock.readers + 1).toInt = 1 := by
      rw [Int32.toInt_inj.mp (hr.trans Int32.toInt_zero.symm)]
      rfl
    -- the writer is a reader now
    refine h.set ?_ ?_ rfl ?_ (.inl hwriters) ?_
    · simp only
      omega
    · simp only
      omega
    · simp only
      omega
    · rw [hplace]
      nofun
  | writeRelease =>
    dsimp only [start] at hs
    obtain ⟨hzero, hs⟩ := Option.ite_none_left_eq_some.mp hs
    obtain ⟨hw, hr, hi⟩ := h.holds_write hzero
    rw [RWLock.writeRelease_of_held hw] at hs
    cases hs
    have hwriters : (s.lock.writers - 1).toInt = 0 := by
      rw [toInt_pred (by omega)]
      omega
    refine h.set ?_ rfl rfl ?_ (.inr hr) ?_
    · simp only
      omega
    · simp only
      omega
    · rw [hplace]
      nofun
  | readAcquire =>
    cases hs
    refine h.set rfl rfl ?_ hbounds.1 hbounds.2.1 nofun
    rw [hwaits]
    rfl
  | readRelease =>
    dsimp only [start] at hs
    obtain ⟨hzero, hs⟩ := Option.ite_none_left_eq_some.mp hs
    obtain ⟨hw, hr⟩ := h.holds_read hzero
    cases hs
    refine h.set rfl ?_ ?_ hbounds.1 (.inl hw) nofun
    · simp only
      rw [toInt_pred (by omega)]
      omega
    · rw [hwaits]
      rfl

/-- An attempt that finds the lock free makes its thread the writer. -/
theorem safe_takeWrite (h : s.Safe) (hfree : s.lock.free = true)
    (hwaits : (s.thread i).place.waits = 1) :
    (s.set i { s.thread i with place := .outside, writes := (s.thread i).writes + 1 }
      s.lock.takeWrite).Safe := by
  have hfree : s.lock.readers = 0 ∧ s.lock.writers = 0 := by simpa [RWLock.free] using hfree
  have hwriters : s.lock.takeWrite.writers.toInt = 1 := by
    change (s.lock.writers + 1).toInt = 1
    rw [hfree.2]
    rfl
  have hnone : s.lock.writers.toInt = 0 := by
    rw [hfree.2]
    rfl
  have hreaders : s.lock.takeWrite.readers.toInt = 0 := by
    change s.lock.readers.toInt = 0
    rw [hfree.1]
    rfl
  have hcount : s.lock.takeWrite.waiters.toInt = s.lock.waiters.toInt - 1 := by
    have hpos := h.waiting hwaits
    exact toInt_pred (by omega)
  refine h.set ?_ rfl ?_ hwriters.le (.inr hreaders) nofun
  · simp only
    omega
  · rw [hwaits, hcount]
    change _ = s.lock.waiters.toInt + (0 : ℕ)
    omega

theorem safe_go (h : s.Safe) (hroom : s.Roomy (i, .go)) (hs : s.go i = some s') : s'.Safe := by
  have hbounds := h.bounds
  unfold go at hs
  cases hplace : (s.thread i).place with
  | outside | trapped =>
    rw [hplace] at hs
    cases hs
  | writing =>
    rw [hplace] at hs
    dsimp only at hs
    split at hs
    · rename_i hfree
      cases hs
      exact safe_takeWrite h hfree (by rw [hplace]; rfl)
    · cases hs
      exact h
  | trying retry =>
    rw [hplace] at hs
    dsimp only at hs
    split at hs
    · rename_i hfree
      cases hs
      exact safe_takeWrite h hfree (by rw [hplace]; rfl)
    · cases hs
      -- the thread stays inside the attempt
      refine h.set rfl rfl ?_ hbounds.1 hbounds.2.1 ?_
      · rw [hplace]
        by_cases hretry : retry - 1 = 0 <;> simp [hretry, Place.waits]
      · by_cases hretry : retry - 1 = 0 <;> simp [hretry]
  | givingUp =>
    rw [hplace] at hs
    cases hs
    have hwaits : (s.thread i).place.waits = 1 := by
      rw [hplace]
      rfl
    have hcount : s.lock.withdraw.waiters.toInt = s.lock.waiters.toInt - 1 := by
      have hpos := h.waiting hwaits
      exact toInt_pred (by omega)
    refine h.set rfl rfl ?_ hbounds.1 hbounds.2.1 nofun
    rw [hwaits, hcount]
    change _ = s.lock.waiters.toInt + (0 : ℕ)
    omega
  | reading =>
    rw [hplace] at hs
    dsimp only at hs
    split at hs
    · rename_i hreadable
      have hmax : s.lock.readers ≠ Int32.maxValue := by
        simpa [Roomy, raises, hplace, hreadable] using hroom
      have hreadable : s.lock.writers = 0 := by simpa [RWLock.readable] using hreadable
      have hwriters : s.lock.writers.toInt = 0 := by
        rw [hreadable]
        rfl
      have hcount : s.lock.readAcquire.readers.toInt = s.lock.readers.toInt + 1 := by
        change (s.lock.readers + 1).toInt = _
        rw [toInt_succ, if_neg hmax]
      cases hs
      refine h.set rfl ?_ ?_ hbounds.1 (.inl hwriters) nofun
      · simp only
        omega
      · simp [RWLock.readAcquire, Place.waits, hplace]
    · cases hs
      exact h
  | released =>
    rw [hplace] at hs
    cases hs
    rw [if_neg (RWLock.not_neg hbounds.2.2)]
    refine h.set rfl rfl ?_ hbounds.1 hbounds.2.1 nofun
    simp [Place.waits, hplace]

omit [DecidableEq T] in
/-- A counter that has been raised from the last `int` is below 0. -/
theorem not_safe_of_raised {c : Int32} (hc : c = Int32.maxValue)
    (h : s.lock.waiters = c + 1 ∨ s.lock.readers = c + 1) : ¬ s.Safe := by
  intro hsafe
  have hneg : (c + 1).toInt = -2 ^ 31 := by rw [toInt_succ, if_pos hc]
  have ha := hsafe.waiters
  have hr := hsafe.readers
  rcases h with h | h
  · rw [h] at ha
    omega
  · rw [h] at hr
    omega

/-- **One section** of one thread keeps the lock safe exactly if it does not count up from the last `int`. -/
theorem safe_step_iff (h : s.Safe) {op : T × LockAction} (hs : s.step op = some s') :
    s'.Safe ↔ s.Roomy op := by
  obtain ⟨i, action⟩ := op
  constructor
  · intro hsafe hmax
    unfold step at hs
    cases action with
    | start call =>
      dsimp only at hs
      split at hs
      · cases call with
        | writeAcquire =>
          cases hs
          exact not_safe_of_raised (Option.some.inj hmax) (.inl rfl) hsafe
        | tryWriteAcquire retry busy =>
          cases busy with
          | true => cases hmax
          | false =>
            cases hs
            exact not_safe_of_raised (Option.some.inj hmax) (.inl rfl) hsafe
        | releaseMutability | writeRelease | readAcquire | readRelease => cases hmax
      · cases hs
    | go =>
      cases hplace : (s.thread i).place with
      | reading =>
        by_cases hreadable : s.lock.readable = true
        · have hreaders : s.lock.readers = Int32.maxValue := by simpa [raises, hplace, hreadable] using hmax
          simp only [go, hplace, hreadable, if_true, Option.some.injEq] at hs
          subst hs
          exact not_safe_of_raised hreaders (.inr rfl) hsafe
        · simp [raises, hplace, hreadable] at hmax
      | outside | writing | trying | givingUp | released | trapped => simp [raises, hplace] at hmax
  · intro hroom
    unfold step at hs
    cases action with
    | go => exact safe_go h hroom hs
    | start call =>
      dsimp only at hs
      split at hs
      · rename_i hplace
        exact safe_start h hplace hroom hs
      · cases hs

omit [DecidableEq T] in
theorem safe_init : ({} : LockRun T).Safe := by
  have hzero : ∀ g : LockThread → ℕ, g {} = 0 → ({} : LockRun T).total g = 0 := fun g hg =>
    Finset.sum_eq_zero fun _ _ => hg
  refine ⟨?_, .inl (hzero _ rfl), ?_, ?_, ?_, fun _ => nofun⟩
  · rw [hzero _ rfl]
    exact Nat.zero_le 1
  · rw [hzero _ rfl]
    rfl
  · rw [hzero _ rfl]
    rfl
  · rw [hzero _ rfl]
    rfl

/-- **The reader-writer lock is safe** in every state of a run, exactly if no step of the run counts
up from the last `int`. -/
theorem rwlock_safe_iff (ops : List (T × LockAction)) (s : LockRun T)
    (hrun : Lib.run LockRun.step ops {} = some s) :
    (∀ ops', ops' <+: ops → ∀ s', Lib.run LockRun.step ops' {} = some s' → s'.Safe) ↔
      Lib.Meets LockRun.step Roomy ops {} :=
  Lib.invariant_iff_meets (fun _ _ _ h hs => safe_step_iff h hs) ops safe_init hrun

/-- A writer becomes a reader, and a second thread reads with it. -/
theorem rwlock_safe_two :
    ∃ s : LockRun (Fin 2), Lib.run LockRun.step [(0, .start .writeAcquire), (0, .go),
      (1, .start .readAcquire), (1, .go), (0, .start .releaseMutability), (1, .go),
      (1, .start .readRelease), (1, .go)] {} = some s ∧ s.Safe := by
  refine ⟨?s, ?hrun, (rwlock_safe_iff _ _ ?hrun).mpr ?hroom _ (List.prefix_refl _) _ ?hrun⟩
  case hrun => rfl
  case hroom => decide

/-! ### A counter that wraps -/

/-- A thread acquires the lock `n` times, to read. -/
def acquires (n : ℕ) : List (Unit × LockAction) :=
  (List.replicate n [((), .start .readAcquire), ((), .go)]).flatten

/-- The thread and the lock after that. -/
def reader (n : ℕ) : LockRun Unit where
  lock := { readers := Int32.ofNat n }
  thread := fun _ => { reads := n }

theorem run_acquires : ∀ n, Lib.run LockRun.step (acquires n) {} = some (reader n)
  | 0 => rfl
  | n + 1 => by
    have hnext : Int32.ofNat n + 1 = Int32.ofNat (n + 1) := by
      rw [Int32.ofNat_add]
      rfl
    have hlast : Lib.run LockRun.step [((), .start .readAcquire), ((), .go)] (reader n) =
        some (reader (n + 1)) := by
      unfold reader
      rw [← hnext]
      rfl
    have ih := run_acquires n
    unfold acquires at ih ⊢
    rw [List.replicate_succ', List.flatten_append, Lib.run_append, ih]
    exact hlast

/-- The thread and the lock at the end of a release that finds too few readers. -/
def trapped (n : ℕ) : LockRun Unit where
  lock := { readers := Int32.ofNat (n + 1) - 1 }
  thread := fun _ => { place := .trapped, reads := n }

theorem run_release (n : ℕ) (h : Int32.ofNat (n + 1) - 1 < 0) :
    Lib.run LockRun.step [((), .start .readRelease), ((), .go)] (reader (n + 1)) = some (trapped n) := by
  change some (LockRun.mk _ (Function.update _ _ _)) = some (LockRun.mk _ _)
  congr 2
  funext i
  rw [Function.update_self]
  exact congrArg (fun place => LockThread.mk place 0 n) (if_pos h)

/-- After more than 2^31 acquires to read, a release finds fewer than no readers. -/
theorem rwlock_overflows : ∃ s : LockRun Unit,
    Lib.run LockRun.step (acquires (2 ^ 31 + 1) ++ [((), .start .readRelease), ((), .go)]) {} = some s ∧
      (s.thread ()).place = .trapped ∧ ¬ s.Safe := by
  refine ⟨trapped (2 ^ 31), ?_, rfl, fun hsafe => hsafe.running () rfl⟩
  rw [Lib.run_append, run_acquires, Option.bind_some]
  exact run_release (2 ^ 31) (by decide)

end LockRun
end WingOS
