/-
# Waking a receiver

One receiver in `ipc_receive` and any number of senders in `ipc_send` and
`ipc_send_async` on the same endpoint, as programs that run at the same time.
The steps are the sections the source protects with the endpoint's lock, the
task's lock or the scheduler's lock. A receiver that finds no message takes
its own `BlockMutex` and leaves its CPU; a sender that has pushed a message
releases the mutex of the receiver.

The receiver tests the queues before it takes the mutex, and a release of a
mutex that is not held does nothing. So the wake-up of a sender that comes
between the two is lost (`wakeup_lost`); it is the only way to lose one
(`no_lost_wakeup`).

Key definitions: `ReceiverPc`, `SenderPc`, `State.step`, `Lost`, `InTime`.
Key theorems: `inv_step`, `no_lost_wakeup`.
-/
import WingOS.Ipc

namespace WingOS
namespace Wakeup

open Function (update)

variable {M : Type*}

/-- Where the receiver stands in `ipc_receive`. -/
inductive ReceiverPc
  /-- sets `awaiting_server` -/
  | enter
  /-- tests `has_message` and `signaled` -/
  | test
  /-- `sched().block()`, after a test that found nothing -/
  | block
  /-- `block_current_task` -/
  | park
  /-- in `blocked_tasks` -/
  | parked
  /-- takes a message under the endpoint's lock -/
  | take
  | done
  deriving DecidableEq

/-- A message of `ipc_send`, or of `ipc_send_async`. -/
inductive Kind
  | sync (isCall : Bool)
  | async
  deriving DecidableEq

/-- Where a sender stands, from its acquire of the endpoint's lock on. -/
inductive SenderPc (M : Type*)
  | idle
  | push (kind : Kind) (msg : M)
  /-- `try_disable_scheduler`, the message is in the queue -/
  | disable (kind : Kind)
  /-- `callee->sched().block()` of a sender that will wait -/
  | blockSelf (isCall : Bool)
  /-- `awaiting_server->sched().unblock()` -/
  | unblock (kind : Kind)
  | unlock (kind : Kind)
  /-- `reenable_scheduler` -/
  | reenable (kind : Kind)
  | park
  | parked

/-- The message is pushed, and the receiver is still to be unblocked for it. -/
def SenderPc.aboutToUnblock : SenderPc M → Bool
  | .disable _ | .blockSelf _ | .unblock _ => true
  | _ => false

/-- `mutex` is the receiver's `BlockMutex`, `senderMutex` those of the
senders; `schedLock` is the write lock a sender takes to disable the
scheduler. -/
structure State (M : Type*) where
  endpoint : Ipc.Endpoint M
  endpointLock : Bool := false
  schedLock : Bool := false
  awaitingServer : Bool := false
  signaled : Bool := false
  receiver : ReceiverPc := .enter
  mutex : Bool := false
  sender : ℕ → SenderPc M := fun _ => .idle
  senderMutex : ℕ → Bool := fun _ => false

namespace State

def setSender (s : State M) (i : ℕ) (p : SenderPc M) : State M :=
  { s with sender := update s.sender i p }

/-- The receiver takes what `ipc_receive` takes; a sender that waits for no
reply is unblocked. -/
def take (s : State M) : Option (State M) :=
  (s.endpoint.receive s.signaled).map fun r =>
    let s := { s with endpoint := r.2, awaitingServer := false, signaled := false, receiver := .done }
    match r.1 with
    | .taken (.sync entry) =>
      if entry.isCall then s
      else { s with senderMutex := update s.senderMutex entry.callee false }
    | _ => s

/-- The next step of the receiver; `none` while it spins on a lock or sleeps. -/
def receiverStep (s : State M) : Option (State M) :=
  match s.receiver with
  | .enter => if s.endpointLock then none else some { s with awaitingServer := true, receiver := .test }
  | .test =>
    if s.endpointLock then none
    else if s.endpoint.hasMessage || s.signaled then some { s with receiver := .take }
    else some { s with receiver := .block }
  | .block => if s.mutex then none else some { s with mutex := true, receiver := .park }
  -- unless it has been unblocked meanwhile, it needs the scheduler's lock
  | .park =>
    if s.mutex then if s.schedLock then none else some { s with receiver := .parked }
    else some { s with receiver := .test }
  | .parked => if s.mutex then none else some { s with receiver := .test }
  | .take => if s.endpointLock then none else s.take
  | .done => some { s with receiver := .enter }

/-- The next step of sender `i`. -/
def senderStep (s : State M) (i : ℕ) : Option (State M) :=
  match s.sender i with
  | .idle => none
  | .push kind msg =>
    let endpoint := match kind with
      | .sync isCall => s.endpoint.send msg i isCall
      | .async => s.endpoint.sendAsync msg
    some (State.setSender { s with endpoint } i (.disable kind))
  | .disable kind =>
    if s.schedLock then none
    else
      let s := { s with schedLock := true }
      some (s.setSender i (match kind with
        | .sync isCall => .blockSelf isCall
        | .async => .unblock .async))
  | .blockSelf isCall =>
    if s.senderMutex i then none
    else
      let s := { s with senderMutex := update s.senderMutex i true }
      some (s.setSender i (.unblock (.sync isCall)))
  | .unblock kind =>
    let s := if s.awaitingServer then { s with mutex := false } else s
    some (s.setSender i (.unlock kind))
  | .unlock kind => some (State.setSender { s with endpointLock := false } i (.reenable kind))
  | .reenable kind =>
    let s := { s with schedLock := false }
    some (s.setSender i (match kind with
      | .sync _ => .park
      | .async => .idle))
  | .park =>
    if s.senderMutex i then if s.schedLock then none else some (s.setSender i .parked)
    else some (s.setSender i .idle)
  | .parked => if s.senderMutex i then none else some (s.setSender i .idle)

end State

inductive Action (M : Type*)
  | receiver
  /-- sender `i` starts a send, once it has the endpoint's lock -/
  | send (i : ℕ) (kind : Kind) (msg : M)
  | sender (i : ℕ)
  /-- the call of sender `i` is replied to -/
  | reply (i : ℕ)

def State.step (s : State M) : Action M → Option (State M)
  | .receiver => s.receiverStep
  | .send i kind msg =>
    match s.sender i with
    | .idle =>
      if s.endpointLock then none
      else some (State.setSender { s with endpointLock := true } i (.push kind msg))
    | _ => none
  | .sender i => s.senderStep i
  | .reply i => some { s with senderMutex := update s.senderMutex i false }

/-- The start of a receive: no lock held, nobody in a send. -/
structure Init (s : State M) : Prop where
  receiver : s.receiver = .enter
  sender : ∀ i, s.sender i = .idle
  mutex : s.mutex = false
  endpointLock : s.endpointLock = false
  schedLock : s.schedLock = false

/-- The receiver sleeps on its mutex, a message waits for it, and no sender is
going to wake it. -/
structure Lost (s : State M) : Prop where
  parked : s.receiver = .parked
  mutex : s.mutex = true
  message : s.endpoint.hasMessage = true
  nobody : ∀ i, (s.sender i).aboutToUnblock = false

/-- The step is not an unblock of the receiver between its test of the queues
and its `block()`. -/
def InTime (s : State M) : Action M → Prop
  | .sender i => (∃ kind, s.sender i = .unblock kind) → s.receiver ≠ .block
  | _ => True

/-! ### The invariant -/

/-- In the wait loop. -/
def ReceiverPc.waits : ReceiverPc → Bool
  | .test | .block | .park | .parked => true
  | _ => false

/-- The receiver found nothing and has not been woken since. -/
def Asleep (s : State M) : Prop :=
  s.receiver = .block ∨ (s.receiver = .park ∨ s.receiver = .parked) ∧ s.mutex = true

/-- In its wait the receiver is the awaited server, and a message that waits
with it comes with a sender that is about to wake it. -/
structure Inv (s : State M) : Prop where
  server : s.receiver.waits = true → s.awaitingServer = true
  pending : Asleep s → s.endpoint.hasMessage = true → ∃ i, (s.sender i).aboutToUnblock = true

theorem not_asleep {s : State M} (hb : s.receiver ≠ .block) (hp : s.receiver ≠ .park)
    (hp' : s.receiver ≠ .parked) : ¬ Asleep s := by
  rintro (h | ⟨h | h, -⟩)
  · exact hb h
  · exact hp h
  · exact hp' h

theorem Init.inv {s : State M} (h : Init s) : Inv s := by
  refine ⟨fun hr => ?_, fun ha => absurd ha ?_⟩
  · rw [h.receiver] at hr
    cases hr
  · apply not_asleep <;> simp [h.receiver]

theorem Inv.not_lost {s : State M} (h : Inv s) : ¬ Lost s := fun hl => by
  obtain ⟨i, hi⟩ := h.pending (.inr ⟨.inr hl.parked, hl.mutex⟩) hl.message
  rw [hl.nobody i] at hi
  cases hi

theorem take_receiver {s s' : State M} (hs : s.take = some s') : s'.receiver = .done := by
  obtain ⟨⟨r, e⟩, -, rfl⟩ := Option.map_eq_some_iff.mp hs
  rcases r with t | _ | _ | _
  · rcases t with _ | entry
    · rfl
    · simp only
      split <;> rfl
  all_goals rfl

/-- A step of the receiver keeps the senders as they are, and it falls asleep
only on empty queues. -/
theorem inv_receiverStep {s s' : State M} (h : Inv s) (hs : s.receiverStep = some s') : Inv s' := by
  have hawake : ∀ t : State M, t.receiver ≠ .block → t.receiver ≠ .park → t.receiver ≠ .parked →
      Asleep t → t.endpoint.hasMessage = true → ∃ i, (t.sender i).aboutToUnblock = true :=
    fun t h1 h2 h3 ha => absurd ha (not_asleep h1 h2 h3)
  unfold State.receiverStep at hs
  cases hr : s.receiver with
  | enter =>
    rw [hr] at hs
    simp only at hs
    split at hs
    · cases hs
    · rw [← Option.some.inj hs]
      refine ⟨fun _ => rfl, ?_⟩
      apply hawake <;> simp
  | test =>
    have hserver := h.server (by rw [hr]; rfl)
    rw [hr] at hs
    simp only at hs
    split at hs
    · cases hs
    · split at hs
      · rw [← Option.some.inj hs]
        refine ⟨fun hw => absurd hw Bool.false_ne_true, ?_⟩
        apply hawake <;> simp
      · rename_i hm
        rw [← Option.some.inj hs]
        refine ⟨fun _ => hserver, fun _ hm' => ?_⟩
        exact absurd (show (s.endpoint.hasMessage || s.signaled) = true by
          rw [show s.endpoint.hasMessage = true from hm', Bool.true_or]) hm
  | block =>
    rw [hr] at hs
    simp only at hs
    split at hs
    · cases hs
    · rw [← Option.some.inj hs]
      exact ⟨fun _ => h.server (by rw [hr]; rfl), fun _ hm => h.pending (.inl hr) hm⟩
  | park =>
    have hserver := h.server (by rw [hr]; rfl)
    rw [hr] at hs
    simp only at hs
    split at hs
    · rename_i hm
      split at hs
      · cases hs
      · rw [← Option.some.inj hs]
        exact ⟨fun _ => hserver, fun _ => h.pending (.inr ⟨.inl hr, hm⟩)⟩
    · rw [← Option.some.inj hs]
      refine ⟨fun _ => hserver, ?_⟩
      apply hawake <;> simp
  | parked =>
    rw [hr] at hs
    simp only at hs
    split at hs
    · cases hs
    · rw [← Option.some.inj hs]
      refine ⟨fun _ => h.server (by rw [hr]; rfl), ?_⟩
      apply hawake <;> simp
  | take =>
    rw [hr] at hs
    simp only at hs
    split at hs
    · cases hs
    · have hdone := take_receiver hs
      refine ⟨fun hw => ?_, ?_⟩
      · rw [hdone] at hw
        cases hw
      · apply hawake <;> simp [hdone]
  | done =>
    rw [hr] at hs
    rw [← Option.some.inj hs]
    refine ⟨fun hw => absurd hw Bool.false_ne_true, ?_⟩
    apply hawake <;> simp

/-- A sender moves on: it is about to wake the receiver afterwards, or it was
not before, or the receiver is awake. -/
theorem Inv.setSender {s : State M} (h : Inv s) (i : ℕ) (p : SenderPc M)
    (hp : p.aboutToUnblock = true ∨ (s.sender i).aboutToUnblock = false ∨ ¬ Asleep s) :
    Inv (s.setSender i p) := by
  refine ⟨h.server, fun ha hm => ?_⟩
  obtain ⟨j, hj⟩ := h.pending ha hm
  rcases hp with hp | hp | hp
  · exact ⟨i, by simpa [State.setSender] using hp⟩
  · have hne : j ≠ i := by
      rintro rfl
      rw [hp] at hj
      cases hj
    exact ⟨j, by simpa [State.setSender, Function.update_of_ne hne] using hj⟩
  · exact absurd ha hp

/-- A sender that unblocks in time wakes a receiver that is asleep. -/
theorem inv_unblock {s : State M} (h : Inv s) (hb : s.receiver ≠ .block) :
    Inv (if s.awaitingServer then { s with mutex := false } else s) ∧
      ¬ Asleep (if s.awaitingServer then { s with mutex := false } else s) := by
  split
  · have hna : ¬ Asleep ({ s with mutex := false } : State M) := by
      rintro (h1 | ⟨-, h1⟩)
      · exact hb h1
      · cases h1
    exact ⟨⟨h.server, fun ha => absurd ha hna⟩, hna⟩
  · rename_i hserver
    refine ⟨h, ?_⟩
    apply not_asleep hb
    · exact fun hr => hserver (h.server (by rw [hr]; rfl))
    · exact fun hr => hserver (h.server (by rw [hr]; rfl))

theorem inv_senderStep {s s' : State M} (h : Inv s) {i : ℕ} (hin : InTime s (.sender i))
    (hs : s.senderStep i = some s') : Inv s' := by
  unfold State.senderStep at hs
  cases hp : s.sender i with
  | idle =>
    rw [hp] at hs
    cases hs
  | push kind msg =>
    rw [hp] at hs
    rw [← Option.some.inj hs]
    -- the message is queued now, and its sender is about to wake the receiver
    exact ⟨h.server, fun _ _ => ⟨i, by simp [State.setSender, SenderPc.aboutToUnblock]⟩⟩
  | disable kind =>
    rw [hp] at hs
    simp only at hs
    split at hs
    · cases hs
    · rw [← Option.some.inj hs]
      refine Inv.setSender (s := { s with schedLock := true }) ⟨h.server, h.pending⟩ i _ (.inl ?_)
      cases kind <;> rfl
  | blockSelf isCall =>
    rw [hp] at hs
    simp only at hs
    split at hs
    · cases hs
    · rw [← Option.some.inj hs]
      exact Inv.setSender (s := { s with senderMutex := update s.senderMutex i true })
        ⟨h.server, h.pending⟩ i _ (.inl rfl)
  | unblock kind =>
    rw [hp] at hs
    rw [← Option.some.inj hs]
    obtain ⟨h1, h2⟩ := inv_unblock h (hin ⟨kind, hp⟩)
    exact h1.setSender i _ (.inr (.inr h2))
  | unlock kind =>
    rw [hp] at hs
    rw [← Option.some.inj hs]
    refine Inv.setSender (s := { s with endpointLock := false }) ⟨h.server, h.pending⟩ i _
      (.inr (.inl ?_))
    simp only [hp]
    rfl
  | reenable kind =>
    rw [hp] at hs
    rw [← Option.some.inj hs]
    refine Inv.setSender (s := { s with schedLock := false }) ⟨h.server, h.pending⟩ i _
      (.inr (.inl ?_))
    simp only [hp]
    rfl
  | park =>
    have hnot : (s.sender i).aboutToUnblock = false := by rw [hp]; rfl
    rw [hp] at hs
    simp only at hs
    split_ifs at hs <;> rw [← Option.some.inj hs] <;> exact h.setSender i _ (.inr (.inl hnot))
  | parked =>
    have hnot : (s.sender i).aboutToUnblock = false := by rw [hp]; rfl
    rw [hp] at hs
    simp only at hs
    split_ifs at hs
    rw [← Option.some.inj hs]
    exact h.setSender i _ (.inr (.inl hnot))

/-- **One step.** Every step in time keeps the invariant. -/
theorem inv_step {s s' : State M} {a : Action M} (h : Inv s) (hin : InTime s a)
    (hs : s.step a = some s') : Inv s' := by
  cases a with
  | receiver => exact inv_receiverStep h hs
  | send i kind msg =>
    unfold State.step at hs
    cases hp : s.sender i with
    | idle =>
      simp only [hp] at hs
      split at hs
      · cases hs
      · rw [← Option.some.inj hs]
        refine Inv.setSender (s := { s with endpointLock := true }) ⟨h.server, h.pending⟩ i _
          (.inr (.inl ?_))
        simp only [hp]
        rfl
    | _ => simp [hp] at hs
  | sender i => exact inv_senderStep h hin hs
  | reply i =>
    rw [← Option.some.inj hs]
    exact ⟨h.server, h.pending⟩

/-- **No lost wake-up.** In every interleaving of the receiver and any number
of senders in which no sender unblocks the receiver between its test of the
queues and its `block()`, the receiver never sleeps while a message waits and
nobody is about to wake it. -/
theorem no_lost_wakeup {s s' : State M} (h : Init s) (as : List (Action M))
    (hin : Lib.Meets State.step InTime as s) (hs : Lib.run State.step as s = some s') : ¬ Lost s' :=
  (Lib.run_invariant_of_meets (P := Inv) (fun _ _ _ h hC hs => inv_step h hC hs) as hin h.inv
    hs).not_lost

/-- The receiver goes to sleep and a sender wakes it. -/
theorem no_lost_wakeup_one_sender : ∃ s' : State ℕ,
    Lib.run State.step [.receiver, .receiver, .receiver, .receiver, .send 0 .async 7, .sender 0,
      .sender 0, .sender 0] { endpoint := {} } = some s' ∧ s'.mutex = false ∧ ¬ Lost s' := by
  refine ⟨_, rfl, rfl, no_lost_wakeup (s := { endpoint := {} }) ⟨rfl, fun _ => rfl, rfl, rfl, rfl⟩
    [.receiver, .receiver, .receiver, .receiver, .send 0 .async 7, .sender 0, .sender 0, .sender 0]
    ?_ rfl⟩
  simp [Lib.Meets, InTime, State.step, State.receiverStep, State.senderStep, State.setSender,
    Ipc.Endpoint.hasMessage]

/-- The receiver tests the queues, the sender pushes its message and unblocks
it, and then the receiver takes its mutex and sleeps. -/
theorem wakeup_lost : ∃ s' : State ℕ,
    Lib.run State.step [.receiver, .receiver, .send 0 .async 7, .sender 0, .sender 0, .sender 0,
      .sender 0, .sender 0, .receiver, .receiver] { endpoint := {} } = some s' ∧ Lost s' := by
  refine ⟨_, rfl, rfl, rfl, rfl, fun i => ?_⟩
  by_cases h : i = 0
  · subst h
    rfl
  · simp [State.setSender, SenderPc.aboutToUnblock]

end Wakeup
end WingOS
