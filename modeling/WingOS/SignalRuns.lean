/-
# Lost signals

Any number of tasks in `signal_await` and of triggers on one endpoint. A task
sleeps on a counter that has moved on only while a trigger is still to visit
one of its entries (`Inv.going`), and a task that would sleep on has an entry
for the next trigger to visit (`Inv.entry`).

A visit can break this in two ways (`visit_lost`, `entry_lost`). Between its
test of the counter and its `block()` a task is not blocked yet, so a visit
does not wake it. And a trigger that raised the counter before the task read it
still visits the entry of the task, and removes it: the task finds the counter
unchanged and sleeps again, without an entry. If neither happens (`InTime`), no
signal is lost (`no_lost_signal`).

Key definitions: `SignalState`, `SignalState.step`, `GoingTo`, `NoLostSignal`,
`InTime`.
Key theorems: `inv_step`, `no_lost_signal`.
-/
import WingOS.Signal
import WingOS.Lib.Run

namespace WingOS

open Function (update)

/-- The endpoint, the tasks in `signal_await` and their mutexes. -/
structure SignalState where
  signal : Signal := {}
  task : ℕ → AwaitPc := fun _ => .idle
  mutex : ℕ → Bool := fun _ => false

inductive SignalAction
  /-- the task `i` calls `signal_await` -/
  | await (i : ℕ) (kind : WaiterKind)
  | task (i : ℕ)
  | trigger (j : ℕ)
  /-- the task `i` is unblocked for another reason -/
  | wake (i : ℕ)

/-- The trigger has not come to the entry `k` yet. -/
def TriggerPc.ToVisit (p : TriggerPc) (k : ℕ) : Prop :=
  match p with
  | .idle => False
  | .counted | .locking => True
  | .visit index => index ≤ k

/-- The entry `k` is one of the task `i`. -/
def Signal.EntryOf (s : Signal) (i k : ℕ) : Prop := ∃ elt, s.awaiters[k]? = some elt ∧ elt.task = i

/-- A trigger is still going to unblock the task `i`. -/
def Signal.GoingTo (s : Signal) (i : ℕ) : Prop := ∃ j k, s.EntryOf i k ∧ (s.trigger j).ToVisit k

/-- In the loop of `signal_await`, with `waitId`. -/
def AwaitPc.Waits (p : AwaitPc) (waitId : ℕ) : Prop :=
  p = .test waitId ∨ p = .block waitId ∨ p = .park waitId ∨ p = .parked waitId

/-- The task, whose mutex is `mutex`, has gone to sleep or is about to. -/
def AwaitPc.Sleeps (p : AwaitPc) (mutex : Bool) (waitId : ℕ) : Prop :=
  p = .block waitId ∨ (p = .park waitId ∨ p = .parked waitId) ∧ mutex = true

theorem AwaitPc.Sleeps.waits {p : AwaitPc} {mutex : Bool} {waitId : ℕ} (h : p.Sleeps mutex waitId) :
    p.Waits waitId := by
  rcases h with h | ⟨h | h, -⟩
  · exact .inr (.inl h)
  · exact .inr (.inr (.inl h))
  · exact .inr (.inr (.inr h))

theorem AwaitPc.not_sleeps_idle {mutex : Bool} {waitId : ℕ} : ¬ AwaitPc.idle.Sleeps mutex waitId := by
  intro h
  rcases h with h | ⟨h | h, -⟩ <;> cases h

theorem AwaitPc.not_sleeps_test {mutex : Bool} {w waitId : ℕ} : ¬ (AwaitPc.test w).Sleeps mutex waitId := by
  intro h
  rcases h with h | ⟨h | h, -⟩ <;> cases h

namespace SignalState

def step (s : SignalState) : SignalAction → Option SignalState
  | .await i kind =>
    match s.task i with
    | .idle => some { s with task := update s.task i (.enter kind) }
    | _ => none
  | .task i =>
    (s.signal.awaitStep i (s.mutex i) (s.task i)).map fun r =>
      { signal := r.1, mutex := update s.mutex i r.2.1, task := update s.task i r.2.2 }
  | .trigger j =>
    (s.signal.triggerStep j).map fun r =>
      match r.2 with
      | none => { s with signal := r.1 }
      | some i => { s with signal := r.1, mutex := update s.mutex i false }
  | .wake i => some { s with mutex := update s.mutex i false }

/-- **No signal is lost**: a task that sleeps on an old counter is going to be
unblocked; and when a trigger has come to the end of its loop, no entry is left
that is for one signal. -/
structure NoLostSignal (s : SignalState) : Prop where
  awake : ∀ i waitId, s.task i = .parked waitId → s.mutex i = true → s.signal.counter ≠ waitId →
    s.signal.GoingTo i
  removed : ∀ j index, s.signal.trigger j = .visit index → s.signal.awaiters.length ≤ index →
    ∀ elt ∈ s.signal.awaiters, elt.kind ≠ .sync

/-- The step is not a visit that comes at the wrong time. It does not remove
the only entry of a task that waits for the counter to leave the value it has;
and it does not unblock a task between its test and its `block()` if the
counter has moved on and no other visit of the task is to come. -/
def InTime (s : SignalState) : SignalAction → Prop
  | .trigger j => ∀ k elt waitId, s.signal.trigger j = .visit k → s.signal.awaiters[k]? = some elt →
      (s.task elt.task).Waits waitId →
        (elt.kind = .sync → s.signal.counter = waitId →
          ∃ k', k' ≠ k ∧ s.signal.EntryOf elt.task k') ∧
        (s.task elt.task = .block waitId → s.signal.counter ≠ waitId →
          ∃ j' k', s.signal.EntryOf elt.task k' ∧ (s.signal.trigger j').ToVisit k' ∧
            (k' ≠ k ∨ j' ≠ j ∧ elt.kind = .async))
  | _ => True

structure Inv (s : SignalState) : Prop where
  /-- The value that was read is not larger than the counter. -/
  read_le : ∀ i waitId, ((s.task i).Waits waitId ∨ ∃ kind, s.task i = .push kind waitId) →
    waitId ≤ s.signal.counter
  entry : ∀ i waitId, (s.task i).Waits waitId → s.signal.counter = waitId →
    ∃ k, s.signal.EntryOf i k
  going : ∀ i waitId, (s.task i).Sleeps (s.mutex i) waitId → s.signal.counter ≠ waitId → s.signal.GoingTo i
  /-- The lock is held by one trigger or one task. -/
  trigger_locks : ∀ j k, s.signal.trigger j = .visit k → s.signal.lock = true ∧
    (∀ j' k', s.signal.trigger j' = .visit k' → j' = j) ∧ ∀ i kind waitId, s.task i ≠ .push kind waitId
  task_locks : ∀ i kind waitId, s.task i = .push kind waitId → s.signal.lock = true ∧
    ∀ i' kind' waitId', s.task i' = .push kind' waitId' → i' = i
  /-- A trigger leaves no entry for one signal behind it. -/
  behind : ∀ j index, s.signal.trigger j = .visit index → index ≤ s.signal.awaiters.length ∧
    ∀ k elt, k < index → s.signal.awaiters[k]? = some elt → elt.kind = .async

theorem inv_init : Inv {} where
  read_le i waitId h := by
    rcases h with (h | h | h | h) | ⟨_, h⟩ <;> cases h
  entry i waitId h := by
    rcases h with h | h | h | h <;> cases h
  going i waitId h := by
    rcases h with h | ⟨h | h, -⟩ <;> cases h
  trigger_locks j k h := by cases h
  task_locks i kind waitId h := by cases h
  behind j index h := by cases h

theorem Inv.noLostSignal {s : SignalState} (h : Inv s) : NoLostSignal s where
  awake i waitId hparked hmutex := h.going i waitId (.inr ⟨.inr hparked, hmutex⟩)
  removed j index hvisit hend elt helt := by
    obtain ⟨k, hk⟩ := List.mem_iff_getElem?.mp helt
    have hlt : k < s.signal.awaiters.length := (List.getElem?_eq_some_iff.mp hk).1
    rw [(h.behind j index hvisit).2 k elt (by omega) hk]
    nofun

/-! ### The entries -/

section Entries

variable {g : Signal} {i j k : ℕ}

theorem entryOf_append {elt : Waiter} {lock : Bool} (h : g.EntryOf i k) :
    Signal.EntryOf { g with awaiters := g.awaiters ++ [elt], lock } i k := by
  obtain ⟨x, hx, hi⟩ := h
  exact ⟨x, by rw [List.getElem?_append_left (List.getElem?_eq_some_iff.mp hx).1, hx], hi⟩

theorem goingTo_append {elt : Waiter} {lock : Bool} (h : g.GoingTo i) :
    Signal.GoingTo { g with awaiters := g.awaiters ++ [elt], lock } i := by
  obtain ⟨j, k, hentry, hvisit⟩ := h
  exact ⟨j, k, entryOf_append hentry, hvisit⟩

/-- An entry that is not the one removed. -/
theorem entryOf_eraseIdx {index : ℕ} (h : g.EntryOf i k) (hk : k ≠ index) :
    Signal.EntryOf { g with awaiters := g.awaiters.eraseIdx index } i (if k < index then k else k - 1) := by
  obtain ⟨x, hx, hi⟩ := h
  refine ⟨x, ?_, hi⟩
  rw [List.getElem?_eraseIdx]
  by_cases hlt : k < index
  · rw [if_pos hlt, if_pos hlt, hx]
  · rw [if_neg hlt, if_neg (by omega), show k - 1 + 1 = k by omega, hx]

@[simp] theorem trigger_setTrigger (p : TriggerPc) : (g.setTrigger j p).trigger j = p := by
  simp [Signal.setTrigger]

theorem trigger_of_ne {p : TriggerPc} {j' : ℕ} (hj : j' ≠ j) :
    (g.setTrigger j p).trigger j' = g.trigger j' := by
  simp [Signal.setTrigger, Function.update_of_ne hj]

end Entries

/-! ### Steps of a task -/

variable {s s' : SignalState}

/-- A task moves on, and leaves the endpoint as it is. -/
theorem Inv.setTask (h : Inv s) {i : ℕ} {p : AwaitPc} {mutex : Bool}
    (hpush : ∀ kind waitId, p ≠ .push kind waitId)
    (hread : ∀ waitId, p.Waits waitId → (s.task i).Waits waitId)
    (hgoing : ∀ waitId, p.Sleeps mutex waitId → s.signal.counter ≠ waitId →
      (s.task i).Sleeps (s.mutex i) waitId) :
    Inv { s with task := update s.task i p, mutex := update s.mutex i mutex } := by
  refine ⟨?_, ?_, ?_, ?_, ?_, h.behind⟩
  · refine (Function.forall_update_iff _ fun _ (p : AwaitPc) => ∀ waitId, (p.Waits waitId ∨
      ∃ kind, p = .push kind waitId) → waitId ≤ s.signal.counter).mpr ⟨?_, fun i' _ => h.read_le i'⟩
    intro waitId hw
    rcases hw with hw | ⟨kind, hw⟩
    · exact h.read_le i waitId (.inl (hread waitId hw))
    · exact absurd hw (hpush kind waitId)
  · refine (Function.forall_update_iff _ fun i (p : AwaitPc) => ∀ waitId, p.Waits waitId →
      s.signal.counter = waitId → ∃ k, s.signal.EntryOf i k).mpr ⟨?_, fun i' _ => h.entry i'⟩
    exact fun waitId hw => h.entry i waitId (hread waitId hw)
  · intro i' waitId
    by_cases hi' : i' = i
    · subst hi'
      dsimp only
      rw [Function.update_self, Function.update_self]
      exact fun hsleeps hne => h.going i' waitId (hgoing waitId hsleeps hne) hne
    · dsimp only
      rw [Function.update_of_ne hi', Function.update_of_ne hi']
      exact h.going i' waitId
  · intro j k hj
    obtain ⟨hlock, hone, hnone⟩ := h.trigger_locks j k hj
    exact ⟨hlock, hone, (Function.forall_update_iff _ fun _ (p : AwaitPc) => ∀ kind waitId,
      p ≠ .push kind waitId).mpr ⟨hpush, fun i' _ => hnone i'⟩⟩
  · have hold : ∀ i' kind waitId, update s.task i p i' = .push kind waitId →
        s.task i' = .push kind waitId := by
      refine (Function.forall_update_iff _ fun i' (p : AwaitPc) => ∀ kind waitId, p = .push kind waitId →
        s.task i' = .push kind waitId).mpr ⟨?_, fun _ _ _ _ hi' => hi'⟩
      exact fun kind waitId hp => absurd hp (hpush kind waitId)
    intro i' kind waitId hi'
    obtain ⟨hlock, hone⟩ := h.task_locks i' kind waitId (hold _ _ _ hi')
    exact ⟨hlock, fun i'' kind' waitId' hi'' => hone i'' kind' waitId' (hold _ _ _ hi'')⟩

/-- A task moves on in its loop, or leaves it. -/
theorem Inv.moveInLoop (h : Inv s) {i waitId : ℕ} {p : AwaitPc} {mutex : Bool} (hi : (s.task i).Waits waitId)
    (hp : p = .idle ∨ p.Waits waitId)
    (hsleeps : p.Sleeps mutex waitId → s.signal.counter ≠ waitId → (s.task i).Sleeps (s.mutex i) waitId) :
    Inv { s with task := update s.task i p, mutex := update s.mutex i mutex } := by
  have hsame : ∀ {w}, p.Waits w → w = waitId := by
    intro w hw
    rcases hp with rfl | rfl | rfl | rfl | rfl <;> rcases hw with hw | hw | hw | hw <;> cases hw <;> rfl
  refine h.setTask (fun kind w hpush => ?_) (fun w hw => hsame hw ▸ hi) (fun w hw hne => ?_)
  · rcases hp with rfl | rfl | rfl | rfl | rfl <;> cases hpush
  · have heq := hsame hw.waits
    subst heq
    exact hsleeps hw hne

/-- A task takes the endpoint's lock and reads the counter. -/
theorem inv_enter (h : Inv s) {i : ℕ} {kind : WaiterKind} (hlock : s.signal.lock = false) :
    Inv { s with
      signal := { s.signal with lock := true }
      task := update s.task i (.push kind s.signal.counter) } := by
  have hvisit : ∀ j k, s.signal.trigger j ≠ .visit k := by
    intro j k hj
    rw [(h.trigger_locks j k hj).1] at hlock
    cases hlock
  have hpush : ∀ i kind waitId, s.task i ≠ .push kind waitId := by
    intro i kind waitId hi
    rw [(h.task_locks i kind waitId hi).1] at hlock
    cases hlock
  have hnew : ∀ i' kind' waitId', update s.task i (.push kind s.signal.counter) i' = .push kind' waitId' →
      i' = i := by
    intro i' kind' waitId' hi'
    by_contra hne
    rw [Function.update_of_ne hne] at hi'
    exact hpush i' kind' waitId' hi'
  refine ⟨?_, ?_, ?_, fun j k hj => absurd hj (hvisit j k), ?_, fun j k hj => absurd hj (hvisit j k)⟩
  · refine (Function.forall_update_iff _ fun _ (p : AwaitPc) => ∀ waitId, (p.Waits waitId ∨
      ∃ kind, p = .push kind waitId) → waitId ≤ s.signal.counter).mpr ⟨?_, fun i' _ => h.read_le i'⟩
    intro waitId hw
    rcases hw with (hw | hw | hw | hw) | ⟨_, hw⟩ <;> cases hw
    exact Nat.le_refl _
  · refine (Function.forall_update_iff _ fun i (p : AwaitPc) => ∀ waitId, p.Waits waitId →
      s.signal.counter = waitId → ∃ k, s.signal.EntryOf i k).mpr ⟨?_, fun i' _ => h.entry i'⟩
    intro waitId hw
    rcases hw with hw | hw | hw | hw <;> cases hw
  · refine (Function.forall_update_iff _ fun i' (p : AwaitPc) => ∀ waitId, p.Sleeps (s.mutex i') waitId →
      s.signal.counter ≠ waitId → s.signal.GoingTo i').mpr ⟨?_, fun i' _ => h.going i'⟩
    intro waitId hw
    rcases hw with hw | ⟨hw | hw, -⟩ <;> cases hw
  · intro i' kind' waitId' hi'
    refine ⟨rfl, fun i'' kind'' waitId'' hi'' => ?_⟩
    rw [hnew i' kind' waitId' hi', hnew i'' kind'' waitId'' hi'']

/-- A task adds its entry and gives the lock back. -/
theorem inv_push (h : Inv s) {i waitId : ℕ} {kind : WaiterKind} (hi : s.task i = .push kind waitId)
    {p : AwaitPc} (hp : p = .idle ∨ p = .test waitId) :
    Inv { s with
      signal := { s.signal with awaiters := s.signal.awaiters ++ [{ task := i, kind }], lock := false }
      task := update s.task i p } := by
  have hvisit : ∀ j k, s.signal.trigger j ≠ .visit k := fun j k hj =>
    (h.trigger_locks j k hj).2.2 i kind waitId hi
  have hpush : ∀ kind' waitId', p ≠ .push kind' waitId' := by
    intro kind' waitId' heq
    rcases hp with rfl | rfl <;> cases heq
  refine ⟨?_, ?_, ?_, fun j k hj => absurd hj (hvisit j k), ?_, fun j k hj => absurd hj (hvisit j k)⟩
  · refine (Function.forall_update_iff _ fun _ (p : AwaitPc) => ∀ waitId, (p.Waits waitId ∨
      ∃ kind, p = .push kind waitId) → waitId ≤ s.signal.counter).mpr ⟨?_, fun i' _ => h.read_le i'⟩
    intro w hw
    have hw : w = waitId := by
      rcases hp with rfl | rfl <;> rcases hw with (hw | hw | hw | hw) | ⟨_, hw⟩ <;> cases hw
      rfl
    rw [hw]
    exact h.read_le i waitId (.inr ⟨kind, hi⟩)
  · intro i' w hw hcount
    by_cases hne : i' = i
    · -- its entry is the last one now
      refine ⟨s.signal.awaiters.length, { task := i, kind }, ?_, hne.symm⟩
      exact List.getElem?_concat_length
    · dsimp only at hw
      rw [Function.update_of_ne hne] at hw
      obtain ⟨k, hk⟩ := h.entry i' w hw hcount
      exact ⟨k, entryOf_append hk⟩
  · refine (Function.forall_update_iff _ fun i' (p : AwaitPc) => ∀ w, p.Sleeps (s.mutex i') w →
      s.signal.counter ≠ w → Signal.GoingTo _ i').mpr ⟨?_, fun i' _ w hw hne =>
        goingTo_append (h.going i' w hw hne)⟩
    intro w hw
    rcases hp with rfl | rfl <;> rcases hw with hw | ⟨hw | hw, -⟩ <;> cases hw
  · intro i' kind' waitId' hi'
    exfalso
    by_cases hne : i' = i
    · rw [hne] at hi'
      dsimp only at hi'
      rw [Function.update_self] at hi'
      exact hpush kind' waitId' hi'
    · dsimp only at hi'
      rw [Function.update_of_ne hne] at hi'
      exact hne ((h.task_locks i kind waitId hi).2 i' kind' waitId' hi')

theorem inv_task (h : Inv s) {i : ℕ} (hs : s.step (.task i) = some s') : Inv s' := by
  obtain ⟨⟨g, mutex, p⟩, hstep, rfl⟩ := Option.map_eq_some_iff.mp hs
  unfold Signal.awaitStep at hstep
  have hkeep : update s.mutex i (s.mutex i) = s.mutex := Function.update_eq_self i s.mutex
  cases hi : s.task i with
  | idle =>
    rw [hi] at hstep
    cases hstep
  | enter kind =>
    rw [hi] at hstep
    obtain ⟨hlock, hstep⟩ := Option.ite_none_left_eq_some.mp hstep
    cases hstep
    rw [hkeep]
    exact inv_enter h (Bool.eq_false_iff.mpr hlock)
  | push kind waitId =>
    rw [hi] at hstep
    cases hstep
    rw [hkeep]
    refine inv_push h hi ?_
    cases kind with
    | async => exact .inl rfl
    | sync => exact .inr rfl
  | test waitId =>
    rw [hi] at hstep
    cases hstep
    have hwaits : (s.task i).Waits waitId := .inl hi
    by_cases hcount : s.signal.counter = waitId
    · rw [if_pos hcount]
      exact h.moveInLoop hwaits (.inr (.inr (.inl rfl))) fun _ hne => absurd hcount hne
    · rw [if_neg hcount]
      exact h.moveInLoop hwaits (.inl rfl) fun hsleeps => absurd hsleeps AwaitPc.not_sleeps_idle
  | block waitId =>
    rw [hi] at hstep
    obtain ⟨-, hstep⟩ := Option.ite_none_left_eq_some.mp hstep
    cases hstep
    exact h.moveInLoop (.inr (.inl hi)) (.inr (.inr (.inr (.inl rfl)))) fun _ _ => .inl hi
  | park waitId =>
    rw [hi] at hstep
    cases hstep
    have hwaits : (s.task i).Waits waitId := .inr (.inr (.inl hi))
    by_cases hmutex : s.mutex i = true
    · rw [if_pos hmutex]
      exact h.moveInLoop hwaits (.inr (.inr (.inr (.inr rfl)))) fun _ _ => .inr ⟨.inl hi, hmutex⟩
    · rw [if_neg hmutex]
      exact h.moveInLoop hwaits (.inr (.inl rfl)) fun hsleeps => absurd hsleeps AwaitPc.not_sleeps_test
  | parked waitId =>
    rw [hi] at hstep
    obtain ⟨-, hstep⟩ := Option.ite_none_left_eq_some.mp hstep
    cases hstep
    exact h.moveInLoop (.inr (.inr (.inr hi))) (.inr (.inl rfl)) fun hsleeps =>
      absurd hsleeps AwaitPc.not_sleeps_test

/-- An unblock leaves fewer tasks asleep. -/
theorem sleeps_of_wake {i i' w : ℕ} (hw : (s.task i').Sleeps (update s.mutex i false i') w) :
    (s.task i').Sleeps (s.mutex i') w ∧ (i' = i → s.task i = .block w) := by
  by_cases hi : i' = i
  · subst hi
    rw [Function.update_self] at hw
    rcases hw with hw | ⟨-, hw⟩
    · exact ⟨.inl hw, fun _ => hw⟩
    · cases hw
  · rw [Function.update_of_ne hi] at hw
    exact ⟨hw, fun heq => absurd heq hi⟩

theorem inv_wake (h : Inv s) (i : ℕ) : Inv { s with mutex := update s.mutex i false } :=
  ⟨h.read_le, h.entry, fun i' w hw hne => h.going i' w (sleeps_of_wake hw).1 hne, h.trigger_locks,
    h.task_locks, h.behind⟩

/-! ### Steps of a trigger -/

/-- No trigger but the `j`-th holds the lock, and no task does. -/
def NoOther (s : SignalState) (j : ℕ) : Prop :=
  (∀ j' k, j' ≠ j → s.signal.trigger j' ≠ .visit k) ∧ ∀ i kind waitId, s.task i ≠ .push kind waitId

theorem Inv.noOther (h : Inv s) {j k : ℕ} (hj : s.signal.trigger j = .visit k) : s.NoOther j :=
  ⟨fun j' k' hne hj' => hne ((h.trigger_locks j k hj).2.1 j' k' hj'), (h.trigger_locks j k hj).2.2⟩

theorem Inv.noOther_of_unlocked (h : Inv s) (hlock : s.signal.lock = false) (j : ℕ) : s.NoOther j := by
  refine ⟨fun j' k _ hj' => ?_, fun i kind waitId hi => ?_⟩
  · rw [(h.trigger_locks j' k hj').1] at hlock
    cases hlock
  · rw [(h.task_locks i kind waitId hi).1] at hlock
    cases hlock

/-- A trigger moves on, and leaves the entries as they are. -/
theorem Inv.setTrigger (h : Inv s) {j : ℕ} {p : TriggerPc} {lock : Bool} {mutex : ℕ → Bool}
    (hgoing : ∀ i w, (s.task i).Sleeps (mutex i) w → s.signal.counter ≠ w →
      Signal.GoingTo { s.signal.setTrigger j p with lock } i)
    (hlock : lock = s.signal.lock ∨ s.NoOther j)
    (hvisit : ∀ index, p = .visit index → lock = true ∧ s.NoOther j ∧ index ≤ s.signal.awaiters.length ∧
      ∀ k elt, k < index → s.signal.awaiters[k]? = some elt → elt.kind = .async) :
    Inv { s with signal := { s.signal.setTrigger j p with lock }, mutex } := by
  refine ⟨h.read_le, h.entry, hgoing, fun j' k hj' => ?_, fun i kind waitId hi => ?_, fun j' k hj' => ?_⟩
  · by_cases hne : j' = j
    · subst hne
      obtain ⟨rfl, hother, -⟩ := hvisit k ((trigger_setTrigger p).symm.trans hj')
      refine ⟨rfl, fun j'' k'' hj'' => ?_, hother.2⟩
      by_contra hne
      exact hother.1 j'' k'' hne ((trigger_of_ne hne).symm.trans hj'')
    · have hold : s.signal.trigger j' = .visit k := (trigger_of_ne hne).symm.trans hj'
      rcases hlock with rfl | hother
      · obtain ⟨hlocked, hone, hpush⟩ := h.trigger_locks j' k hold
        refine ⟨hlocked, fun j'' k'' hj'' => ?_, hpush⟩
        by_cases hne' : j'' = j
        · subst hne'
          exact absurd hold ((hvisit k'' ((trigger_setTrigger p).symm.trans hj'')).2.1.1 j' k hne)
        · exact hone j'' k'' ((trigger_of_ne hne').symm.trans hj'')
      · exact absurd hold (hother.1 j' k hne)
  · rcases hlock with rfl | hother
    · exact h.task_locks i kind waitId hi
    · exact absurd hi (hother.2 i kind waitId)
  · by_cases hne : j' = j
    · subst hne
      exact (hvisit k ((trigger_setTrigger p).symm.trans hj')).2.2
    · exact h.behind j' k ((trigger_of_ne hne).symm.trans hj')

/-- A trigger that moves on to `p` and still comes to the entries it was to visit. -/
theorem goingTo_setTrigger {g : Signal} {i j : ℕ} {p : TriggerPc} {lock : Bool} (hg : g.GoingTo i)
    (hkeep : ∀ k < g.awaiters.length, (g.trigger j).ToVisit k → p.ToVisit k) :
    Signal.GoingTo { g.setTrigger j p with lock } i := by
  obtain ⟨j', k, hentry, hvisit⟩ := hg
  refine ⟨j', k, hentry, ?_⟩
  show TriggerPc.ToVisit ((g.setTrigger j p).trigger j') k
  by_cases hne : j' = j
  · obtain ⟨elt, helt, -⟩ := hentry
    rw [hne] at hvisit ⊢
    rw [trigger_setTrigger]
    exact hkeep k (List.getElem?_eq_some_iff.mp helt).1 hvisit
  · rw [trigger_of_ne hne]
    exact hvisit

/-- A trigger raises the counter, and will come to all the entries. -/
theorem inv_count (h : Inv s) {j : ℕ} (hj : s.signal.trigger j = .idle) :
    Inv { s with signal := { s.signal.setTrigger j .counted with counter := s.signal.counter + 1 } } := by
  have hvisit : ∀ {j' k}, (s.signal.setTrigger j .counted).trigger j' = .visit k →
      s.signal.trigger j' = .visit k := by
    intro j' k hj'
    by_cases hne : j' = j
    · subst hne
      rw [trigger_setTrigger] at hj'
      cases hj'
    · exact (trigger_of_ne hne).symm.trans hj'
  refine ⟨fun i w hw => Nat.le_succ_of_le (h.read_le i w hw), fun i w hw hcount => ?_,
    fun i w hw hcount => ?_, fun j' k hj' => ?_, h.task_locks, fun j' k hj' => h.behind j' k (hvisit hj')⟩
  · have hle := h.read_le i w (.inl hw)
    dsimp only at hcount
    omega
  · have hentry : ∃ k, s.signal.EntryOf i k := by
      by_cases hold : s.signal.counter = w
      · exact h.entry i w hw.waits hold
      · obtain ⟨_, k, hentry, -⟩ := h.going i w hw hold
        exact ⟨k, hentry⟩
    obtain ⟨k, hk⟩ := hentry
    refine ⟨j, k, hk, ?_⟩
    show TriggerPc.ToVisit ((s.signal.setTrigger j .counted).trigger j) k
    rw [trigger_setTrigger]
    trivial
  · obtain ⟨hlock, hone, hpush⟩ := h.trigger_locks j' k (hvisit hj')
    exact ⟨hlock, fun j'' k'' hj'' => hone j'' k'' (hvisit hj''), hpush⟩

/-- The visit of the entry `k` is in time: a task that sleeps on still has a
trigger that comes to another one of its entries. -/
theorem going_of_inTime (h : Inv s) {j k : ℕ} {elt : Waiter} (hj : s.signal.trigger j = .visit k)
    (hk : s.signal.awaiters[k]? = some elt) (hin : s.InTime (.trigger j)) {i w : ℕ}
    (hw : (s.task i).Sleeps (update s.mutex elt.task false i) w) (hcount : s.signal.counter ≠ w) :
    ∃ j' k', s.signal.EntryOf i k' ∧ (s.signal.trigger j').ToVisit k' ∧
      (k' ≠ k ∨ j' ≠ j ∧ elt.kind = .async) := by
  obtain ⟨hsleeps, hblock⟩ := sleeps_of_wake hw
  by_cases hi : i = elt.task
  · subst hi
    exact (hin k elt w hj hk (.inr (.inl (hblock rfl)))).2 (hblock rfl) hcount
  · obtain ⟨j', k', hentry, hvisit⟩ := h.going i w hsleeps hcount
    refine ⟨j', k', hentry, hvisit, .inl fun heq => ?_⟩
    subst heq
    obtain ⟨elt', helt', hi'⟩ := hentry
    rw [hk, Option.some.injEq] at helt'
    exact hi (by rw [helt', hi'])

/-- A trigger unblocks the task of an entry that stays. -/
theorem inv_visit_async (h : Inv s) {j k : ℕ} {elt : Waiter} (hj : s.signal.trigger j = .visit k)
    (hk : s.signal.awaiters[k]? = some elt) (hkind : elt.kind = .async) (hin : s.InTime (.trigger j)) :
    Inv { s with signal := s.signal.setTrigger j (.visit (k + 1)), mutex := update s.mutex elt.task false } := by
  have hlt : k < s.signal.awaiters.length := (List.getElem?_eq_some_iff.mp hk).1
  refine h.setTrigger (fun i w hw hcount => ?_) (.inl rfl) fun index hindex => ?_
  · obtain ⟨j', k', hentry, hvisit, hother⟩ := going_of_inTime h hj hk hin hw hcount
    refine ⟨j', k', hentry, ?_⟩
    show TriggerPc.ToVisit ((s.signal.setTrigger j (.visit (k + 1))).trigger j') k'
    by_cases hne : j' = j
    · subst hne
      rw [hj] at hvisit
      rw [trigger_setTrigger]
      have hle : k ≤ k' := hvisit
      have hne : k' ≠ k := hother.resolve_right fun hboth => hboth.1 rfl
      show k + 1 ≤ k'
      omega
    · rw [trigger_of_ne hne]
      exact hvisit
  · cases hindex
    refine ⟨(h.trigger_locks j k hj).1, h.noOther hj, hlt, fun k' elt' hk' helt' => ?_⟩
    by_cases heq : k' = k
    · subst heq
      rw [hk, Option.some.injEq] at helt'
      rw [← helt', hkind]
    · exact (h.behind j k hj).2 k' elt' (by omega) helt'

/-- A trigger unblocks the task of an entry and removes the entry. -/
theorem inv_visit_sync (h : Inv s) {j k : ℕ} {elt : Waiter} (hj : s.signal.trigger j = .visit k)
    (hk : s.signal.awaiters[k]? = some elt) (hkind : elt.kind = .sync) (hin : s.InTime (.trigger j)) :
    Inv { s with
      signal := { s.signal with awaiters := s.signal.awaiters.eraseIdx k }
      mutex := update s.mutex elt.task false } := by
  have hlt : k < s.signal.awaiters.length := (List.getElem?_eq_some_iff.mp hk).1
  refine ⟨h.read_le, fun i w hw hcount => ?_, fun i w hw hcount => ?_, h.trigger_locks, h.task_locks,
    fun j' k' hj' => ?_⟩
  · obtain ⟨k₀, hentry⟩ := h.entry i w hw hcount
    by_cases hne : k₀ = k
    · subst hne
      obtain ⟨elt', helt', hi⟩ := hentry
      rw [hk, Option.some.injEq] at helt'
      subst helt' hi
      obtain ⟨k', hne, hentry'⟩ := (hin k₀ elt w hj hk hw).1 hkind hcount
      exact ⟨_, entryOf_eraseIdx hentry' hne⟩
    · exact ⟨_, entryOf_eraseIdx hentry hne⟩
  · obtain ⟨j', k', hentry, hvisit, hother⟩ := going_of_inTime h hj hk hin hw hcount
    have hne : k' ≠ k := by
      refine hother.resolve_right fun hboth => ?_
      rw [hkind] at hboth
      cases hboth.2
    refine ⟨j', _, entryOf_eraseIdx hentry hne, ?_⟩
    show (s.signal.trigger j').ToVisit _
    cases hpc : s.signal.trigger j' with
    | idle =>
      rw [hpc] at hvisit
      exact hvisit
    | counted => trivial
    | locking => trivial
    | visit index =>
      have hindex : index = k := by
        rw [(h.trigger_locks j k hj).2.1 j' index hpc, hj, TriggerPc.visit.injEq] at hpc
        exact hpc.symm
      subst hindex
      rw [hpc] at hvisit
      have hle : index ≤ k' := hvisit
      rw [if_neg (by omega)]
      show index ≤ k' - 1
      omega
  · rw [(h.trigger_locks j k hj).2.1 j' k' hj'] at hj'
    rw [hj, TriggerPc.visit.injEq] at hj'
    subst hj'
    refine ⟨?_, fun k'' elt'' hk'' helt'' => ?_⟩
    · show k ≤ (s.signal.awaiters.eraseIdx k).length
      rw [List.length_eraseIdx_of_lt hlt]
      omega
    · refine (h.behind j k hj).2 k'' elt'' hk'' ?_
      rw [← helt'', List.getElem?_eraseIdx_of_lt hk'']

theorem inv_trigger (h : Inv s) {j : ℕ} (hin : s.InTime (.trigger j))
    (hs : s.step (.trigger j) = some s') : Inv s' := by
  obtain ⟨⟨g, woken⟩, hstep, rfl⟩ := Option.map_eq_some_iff.mp hs
  unfold Signal.triggerStep at hstep
  cases hj : s.signal.trigger j with
  | idle =>
    rw [hj] at hstep
    cases hstep
    exact inv_count h hj
  | counted =>
    rw [hj] at hstep
    cases hstep
    refine h.setTrigger (fun i w hw hcount => ?_) (.inl rfl) fun index hindex => ?_
    · refine goingTo_setTrigger (h.going i w hw hcount) fun k hk _ => ?_
      -- there is an entry, so the trigger does not return early
      rw [if_neg (by omega)]
      trivial
    · by_cases hlen : s.signal.awaiters.length = 0
      · rw [if_pos hlen] at hindex
        cases hindex
      · rw [if_neg hlen] at hindex
        cases hindex
  | locking =>
    rw [hj] at hstep
    obtain ⟨hlock, hstep⟩ := Option.ite_none_left_eq_some.mp hstep
    cases hstep
    have hother := h.noOther_of_unlocked (Bool.eq_false_iff.mpr hlock) j
    refine h.setTrigger (fun i w hw hcount => ?_) (.inr hother) fun index hindex => ?_
    · exact goingTo_setTrigger (h.going i w hw hcount) fun k _ _ => Nat.zero_le k
    · cases hindex
      exact ⟨rfl, hother, Nat.zero_le _, fun k elt hk => absurd hk (Nat.not_lt_zero k)⟩
  | visit k =>
    rw [hj] at hstep
    cases hk : s.signal.awaiters[k]? with
    | none =>
      simp only [hk] at hstep
      cases hstep
      refine h.setTrigger (fun i w hw hcount => ?_) (.inr (h.noOther hj)) (fun index hindex => by cases hindex)
      refine goingTo_setTrigger (h.going i w hw hcount) fun k' hk' hvisit => ?_
      -- there is no entry behind the end
      have hlen := List.getElem?_eq_none_iff.mp hk
      rw [hj] at hvisit
      have hle : k ≤ k' := hvisit
      omega
    | some elt =>
      cases hkind : elt.kind with
      | sync =>
        simp only [hk, hkind] at hstep
        cases hstep
        exact inv_visit_sync h hj hk hkind hin
      | async =>
        simp only [hk, hkind] at hstep
        cases hstep
        exact inv_visit_async h hj hk hkind hin

theorem inv_step (a : SignalAction) (h : Inv s) (hin : s.InTime a) (hs : s.step a = some s') : Inv s' := by
  cases a with
  | await i kind =>
    cases hi : s.task i with
    | idle =>
      simp only [step, hi] at hs
      cases hs
      have hset : Inv { s with task := update s.task i (.enter kind), mutex := update s.mutex i (s.mutex i) } :=
        h.setTask nofun
          (fun w hw => by rcases hw with hw | hw | hw | hw <;> cases hw)
          (fun w hw => by rcases hw with hw | ⟨hw | hw, -⟩ <;> cases hw)
      rwa [Function.update_eq_self] at hset
    | _ =>
      simp only [step, hi] at hs
      cases hs
  | task i => exact inv_task h hs
  | trigger j => exact inv_trigger h hin hs
  | wake i =>
    cases hs
    exact inv_wake h i

/-- **No lost signal.** After any steps of tasks, triggers and others that
unblock, in any order, in which every visit comes in time. -/
theorem no_lost_signal (ops : List SignalAction) (s : SignalState) (hin : Lib.Meets step InTime ops {})
    (hrun : Lib.run step ops {} = some s) : NoLostSignal s :=
  (Lib.run_invariant_of_meets (fun _ a _ h hin hs => inv_step a h hin hs) ops hin inv_init hrun).noLostSignal

/-- A task goes to sleep, and a trigger wakes it. -/
def wakeup : List SignalAction :=
  [.await 0 .sync, .task 0, .task 0, .task 0, .task 0, .task 0,
    .trigger 0, .trigger 0, .trigger 0, .trigger 0]

theorem no_lost_signal_wakeup : (Lib.run step wakeup {}).isSome = true ∧
    ∀ s, Lib.run step wakeup {} = some s → NoLostSignal s := by
  refine ⟨rfl, fun s hs => no_lost_signal wakeup s ?_ hs⟩
  iterate 6 refine ⟨trivial, fun s' hs' => ?_⟩; cases hs'
  iterate 3 refine ⟨fun k elt w hj => (by cases hj), fun s' hs' => ?_⟩; cases hs'
  refine ⟨fun k elt w hj hk hw => ?_, fun _ _ => trivial⟩
  cases hj
  cases hk
  rcases hw with hw | hw | hw | hw <;> cases hw
  exact ⟨fun _ hcount => (by cases hcount), fun hblock => (by cases hblock)⟩

theorem not_goingTo_of_nil {g : Signal} (h : g.awaiters = []) (i : ℕ) : ¬ g.GoingTo i := by
  intro ⟨_, _, ⟨_, helt, _⟩, _⟩
  rw [h] at helt
  cases helt

/-- The visit comes between the test and the `block()` of the task. -/
theorem visit_lost : ∃ s, Lib.run step [.await 0 .sync, .task 0, .task 0, .task 0,
    .trigger 0, .trigger 0, .trigger 0, .trigger 0, .trigger 0,
    .task 0, .task 0] {} = some s ∧ ¬ NoLostSignal s := by
  refine ⟨_, rfl, fun hlost => ?_⟩
  exact not_goingTo_of_nil rfl 0 (hlost.awake 0 0 rfl rfl (show 1 ≠ 0 by decide))

/-- The task reads the counter after the first trigger has raised it. This one
takes its entry, and the second one returns early. -/
theorem entry_lost : ∃ s, Lib.run step [.trigger 0,
    .await 0 .sync, .task 0, .task 0, .task 0, .task 0, .task 0,
    .trigger 0, .trigger 0, .trigger 0, .trigger 0,
    .task 0, .task 0, .task 0, .task 0,
    .trigger 1, .trigger 1] {} = some s ∧ ¬ NoLostSignal s := by
  refine ⟨_, rfl, fun hlost => ?_⟩
  exact not_goingTo_of_nil rfl 0 (hlost.awake 0 1 rfl rfl (show 2 ≠ 1 by decide))

end SignalState
end WingOS
