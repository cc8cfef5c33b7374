/-
# Signals

`signal_await` and `signal_trigger` on one endpoint (`kernel/generic/signal.cpp`,
`signal_asset.hpp`), as programs that run at the same time. The steps are the
accesses to the counter, which no lock protects, the sections under the
endpoint's lock, and `block()` and `block_current_task`; a trigger unblocks one
waiter in a step.

A waiter reads the counter and adds its entry, and then sleeps as long as the
counter has this value. A trigger raises the counter, returns if there are no
entries, and otherwise visits them all: it unblocks the task of each, and
removes the entries of those that wait for just one signal.

The counter does not overflow. The handle of the signal that a woken task can
ask for is left out, and so is the asset behind it.

Key definitions: `Signal`, `TriggerPc`, `AwaitPc`, `Signal.triggerStep`,
`Signal.awaitStep`.
Key theorems: `triggerStep_wakes`.
-/
import Mathlib.Logic.Function.Basic
import Mathlib.Tactic.Common

namespace WingOS

open Function (update)

inductive WaiterKind
  | async | sync
  deriving DecidableEq

/-- `kernel::Waiter`. -/
structure Waiter where
  task : ℕ
  kind : WaiterKind

/-- Where a `signal_trigger` stands. -/
inductive TriggerPc
  | idle
  /-- the counter is raised -/
  | counted
  /-- there were entries; waits for the endpoint's lock -/
  | locking
  /-- in the loop, with `index` -/
  | visit (index : ℕ)

/-- `kernel::SignalEndpoint`, with the triggers that are under way. -/
structure Signal where
  counter : ℕ := 0
  awaiters : List Waiter := []
  lock : Bool := false
  trigger : ℕ → TriggerPc := fun _ => .idle

/-- Where a task stands in `signal_await`. -/
inductive AwaitPc
  | idle
  /-- waits for the endpoint's lock -/
  | enter (kind : WaiterKind)
  /-- has read the counter -/
  | push (kind : WaiterKind) (waitId : ℕ)
  /-- the test of the loop -/
  | test (waitId : ℕ)
  /-- `sched().block()` -/
  | block (waitId : ℕ)
  /-- `block_current_task` -/
  | park (waitId : ℕ)
  /-- in `blocked_tasks` -/
  | parked (waitId : ℕ)

namespace Signal

def setTrigger (s : Signal) (j : ℕ) (p : TriggerPc) : Signal :=
  { s with trigger := update s.trigger j p }

/-- The next step of the `j`-th trigger, which starts with the counter, and the
task it unblocks; `none` while it waits for the lock. -/
def triggerStep (s : Signal) (j : ℕ) : Option (Signal × Option ℕ) :=
  match s.trigger j with
  | .idle => some ({ s.setTrigger j .counted with counter := s.counter + 1 }, none)
  -- the early return
  | .counted => some (s.setTrigger j (if s.awaiters.length = 0 then .idle else .locking), none)
  | .locking => if s.lock then none else some ({ s.setTrigger j (.visit 0) with lock := true }, none)
  | .visit index =>
    match s.awaiters[index]? with
    | none => some ({ s.setTrigger j .idle with lock := false }, none)
    | some elt =>
      match elt.kind with
      | .sync => some ({ s with awaiters := s.awaiters.eraseIdx index }, some elt.task)
      | .async => some (s.setTrigger j (.visit (index + 1)), some elt.task)

/-- The next step of a task in `signal_await`: what it does to the endpoint and
to its own mutex. `none` while it waits for a lock or sleeps. -/
def awaitStep (s : Signal) (task : ℕ) (mutex : Bool) : AwaitPc → Option (Signal × Bool × AwaitPc)
  | .idle => none
  | .enter kind => if s.lock then none else some ({ s with lock := true }, mutex, .push kind s.counter)
  | .push kind waitId =>
    some ({ s with awaiters := s.awaiters ++ [{ task, kind }], lock := false }, mutex,
      match kind with
      | .async => .idle
      | .sync => .test waitId)
  | .test waitId => some (s, mutex, if s.counter = waitId then .block waitId else .idle)
  | .block waitId => if mutex then none else some (s, true, .park waitId)
  -- the scheduler puts a task that is not blocked back into its queue
  | .park waitId => some (s, mutex, if mutex then .parked waitId else .test waitId)
  | .parked waitId => if mutex then none else some (s, mutex, .test waitId)

/-- A trigger unblocks the task of the entry it visits. -/
theorem triggerStep_wakes {s s' : Signal} {j i : ℕ} (h : s.triggerStep j = some (s', some i)) :
    ∃ k elt, s.trigger j = .visit k ∧ s.awaiters[k]? = some elt ∧ elt.task = i := by
  unfold triggerStep at h
  cases hj : s.trigger j with
  | idle | counted =>
    rw [hj] at h
    cases h
  | locking =>
    rw [hj] at h
    simp only at h
    split at h <;> cases h
  | visit k =>
    rw [hj] at h
    cases hk : s.awaiters[k]? with
    | none =>
      simp only [hk] at h
      cases h
    | some elt =>
      refine ⟨k, elt, rfl, hk, ?_⟩
      cases hkind : elt.kind <;> simp only [hk, hkind] at h <;> cases h <;> rfl

end Signal
end WingOS
