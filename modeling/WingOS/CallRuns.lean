/-
# Calls return with their answer

A sender that has blocked is unblocked by the receiver of its message or by the
reply to its call, as long as no other unblock comes before (`Inv.waits`): the
unblock of `ipc_send` is of the awaited server, which is in `ipc_receive`
(`Inv.server`), and the one of a receive is of the sender of the message it
took (`Inv.queue`).

Three unblocks come without this care: that of a `signal_trigger` whose list has
the task, that of an `ipc_reply` to a call that is over, and the fresh control
block of `task_run`. If none of them comes upon a sender that waits (`NoStray`),
every `ipc_send` returns with its answer (`calls_answered`); a signal is enough
to break it (`call_interrupted`).

Key definitions: `CallsAnswered`, `NoStray`, `Inv`.
Key theorems: `inv_step`, `calls_answered`.
-/
import WingOS.Call

namespace WingOS

open Function (update)
open Ipc (SyncEntry)

/-- The message whose sender the task is. -/
def SendPc.call : SendPc → Option ℕ
  | .lock _ | .push _ => none
  | .disable c | .unblockServer c | .unlock c | .reenable c => c
  | .blockSelf c | .park c | .parked c => some c

/-- It has called `block()`. -/
def SendPc.pastBlock : SendPc → Bool
  | .lock _ | .push _ | .disable _ | .blockSelf _ => false
  | .unblockServer c | .unlock c | .reenable c => c.isSome
  | .park _ | .parked _ => true

def TaskPc.call : TaskPc → Option ℕ
  | .send _ p => p.call
  | _ => none

def TaskPc.pastBlock : TaskPc → Bool
  | .send _ p => p.pastBlock
  | _ => false

namespace CallState

def answered (s : CallState) (c : ℕ) : Bool := (s.call c).answered

/-- Every `ipc_send` that has returned has its answer; and a message without
one has its sender in `ipc_send`, blocked from `block()` on. -/
structure CallsAnswered (s : CallState) : Prop where
  returned : ∀ c < s.nextCall, (s.call c).returned = true → s.answered c = true
  waits : ∀ c < s.nextCall, s.answered c = false → (s.pc (s.call c).caller).call = some c ∧
    ((s.pc (s.call c).caller).pastBlock = true → s.mutex (s.call c).caller = true)

/-- The task does not wait for an answer. -/
def NotWaiting (s : CallState) (t : ℕ) : Prop :=
  ∀ c ∈ (s.pc t).call, (s.pc t).pastBlock = true → s.answered c = true

/-- The task that a trigger, a reply to another call than the one it is in, or
its launch unblocks. -/
def unrelated (s : CallState) : CallAction → Option ℕ
  | .trigger g j =>
    match (s.signal g).trigger j with
    | .visit k => (s.signal g).awaiters[k]?.map Waiter.task
    | _ => none
  | .task t =>
    match s.pc t with
    | .reply r .unblock => if (s.pc r.target).call = some r.call then none else some r.target
    | _ => none
  | .launch t => some t
  | _ => none

/-- No such unblock of a task that waits. -/
def NoStray (s : CallState) (a : CallAction) : Prop := ∀ t ∈ s.unrelated a, s.NotWaiting t

instance (s : CallState) (t : ℕ) : Decidable (s.NotWaiting t) :=
  inferInstanceAs (Decidable (∀ c ∈ (s.pc t).call, (s.pc t).pastBlock = true → s.answered c = true))

instance (s : CallState) (a : CallAction) : Decidable (s.NoStray a) :=
  inferInstanceAs (Decidable (∀ t ∈ s.unrelated a, s.NotWaiting t))

/-- The entry `x` in the sync queue of `e`. -/
structure Waiting (call : ℕ → Call) (nextCall e : ℕ) (x : SyncEntry ℕ) : Prop where
  old : x.kernelMemMsg < nextCall
  endpoint : (call x.kernelMemMsg).endpoint = e
  caller : (call x.kernelMemMsg).caller = x.callee
  isCall : (call x.kernelMemMsg).isCall = x.isCall
  taken : (call x.kernelMemMsg).taken = false

/-- The return task is one of a call. -/
structure Owed (call : ℕ → Call) (nextCall : ℕ) (r : ReturnTask) : Prop where
  old : r.call < nextCall
  isCall : (call r.call).isCall = true

structure Inv (s : CallState) : Prop where
  sender : ∀ t c, (s.pc t).call = some c → c < s.nextCall ∧ (s.call c).caller = t
  answers : CallsAnswered s
  server : ∀ e t, s.awaitingServer e = some t → ∃ p, s.pc t = .receive e p
  queue : ∀ e, ∃ l, (s.endpoint e).syncQueue.Repr l ∧ (l.map SyncEntry.kernelMemMsg).Nodup ∧
    ∀ x ∈ l, Waiting s.call s.nextCall e x
  tasks : ∀ r ∈ s.returnTasks, Owed s.call s.nextCall r
  /-- A reply unblocks after it has written. -/
  reply : ∀ t r p, s.pc t = .reply r p → Owed s.call s.nextCall r ∧ (p = .unblock → (s.call r.call).replied = true)

theorem inv_init : Inv {} where
  sender t c h := by cases h
  answers := ⟨fun c hc => absurd hc (Nat.not_lt_zero c), fun c hc => absurd hc (Nat.not_lt_zero c)⟩
  server e t h := by cases h
  queue e := ⟨[], Ring.repr_empty, List.nodup_nil, fun _ hx => absurd hx List.not_mem_nil⟩
  tasks r hr := absurd hr List.not_mem_nil
  reply t r p h := by cases h

variable {s s' : CallState}

/-! ### What a step changes -/

section Entries

variable {call : ℕ → Call} {nextCall c : ℕ} {m : Call}

theorem Waiting.congr {call' : ℕ → Call} {nextCall' e : ℕ} {x : SyncEntry ℕ}
    (h : Waiting call nextCall e x) (hcall : call' x.kernelMemMsg = call x.kernelMemMsg)
    (hle : nextCall ≤ nextCall') : Waiting call' nextCall' e x :=
  ⟨Nat.lt_of_lt_of_le h.old hle, hcall ▸ h.endpoint, hcall ▸ h.caller, hcall ▸ h.isCall, hcall ▸ h.taken⟩

theorem Owed.congr {call' : ℕ → Call} {nextCall' : ℕ} {r : ReturnTask} (h : Owed call nextCall r)
    (hcall : call' r.call = call r.call) (hle : nextCall ≤ nextCall') : Owed call' nextCall' r :=
  ⟨Nat.lt_of_lt_of_le h.old hle, hcall ▸ h.isCall⟩

theorem Waiting.mark {e : ℕ} {x : SyncEntry ℕ} (h : Waiting call nextCall e x)
    (hendpoint : m.endpoint = (call c).endpoint) (hcaller : m.caller = (call c).caller)
    (hcall : m.isCall = (call c).isCall) (htaken : m.taken = (call c).taken) :
    Waiting (update call c m) nextCall e x := by
  by_cases heq : x.kernelMemMsg = c
  · subst heq
    refine ⟨h.old, ?_, ?_, ?_, ?_⟩ <;> rw [Function.update_self]
    · exact hendpoint.trans h.endpoint
    · exact hcaller.trans h.caller
    · exact hcall.trans h.isCall
    · exact htaken.trans h.taken
  · exact h.congr (Function.update_of_ne heq ..) (Nat.le_refl _)

theorem Owed.mark {r : ReturnTask} (h : Owed call nextCall r) (hcall : m.isCall = (call c).isCall) :
    Owed (update call c m) nextCall r := by
  by_cases heq : r.call = c
  · subst heq
    refine ⟨h.old, ?_⟩
    rw [Function.update_self]
    exact hcall.trans h.isCall
  · exact h.congr (Function.update_of_ne heq ..) (Nat.le_refl _)

theorem answered_taken (h : m.answered = true) : Call.answered { m with taken := true } = true := by
  unfold Call.answered at *
  by_cases hcall : m.isCall = true
  · rw [if_pos hcall] at *
    exact h
  · rw [if_neg hcall]

theorem answered_replied (h : m.answered = true) : Call.answered { m with replied := true } = true := by
  unfold Call.answered at *
  by_cases hcall : m.isCall = true
  · rw [if_pos hcall]
  · rw [if_neg hcall] at *
    exact h

end Entries

/-- A task moves on in the same send or outside of one, or leaves a send that
has its answer. -/
theorem Inv.move (h : Inv s) {t : ℕ} {p : TaskPc} {endpointLock : ℕ → Bool} {schedLock : Bool}
    {signal : ℕ → Signal} {mutex signaled : ℕ → Bool} {returnTasks : List ReturnTask}
    (hcall : p.call = (s.pc t).call ∨ p.call = none ∧ ∀ c, (s.pc t).call = some c → s.answered c = true)
    (hblocked : p.pastBlock = true → mutex t = true ∨ (s.pc t).pastBlock = true ∧ mutex t = s.mutex t)
    (hmutex : ∀ t' ≠ t, mutex t' = s.mutex t')
    (hserver : ∀ e, s.awaitingServer e = some t → ∃ q, p = .receive e q)
    (hreply : ∀ r q, p = .reply r q →
      Owed s.call s.nextCall r ∧ (q = .unblock → (s.call r.call).replied = true))
    (htasks : ∀ r ∈ returnTasks, r ∈ s.returnTasks) :
    Inv { s with endpointLock, schedLock, signal, signaled, mutex, returnTasks, pc := update s.pc t p } := by
  refine ⟨?_, ⟨h.answers.returned, fun c hc hans => ?_⟩, fun e t' ht' => ?_, h.queue,
    fun r hr => h.tasks r (htasks r hr), ?_⟩
  · refine (Function.forall_update_iff _ fun t (p : TaskPc) => ∀ c, p.call = some c →
      c < s.nextCall ∧ (s.call c).caller = t).mpr ⟨?_, fun t' _ => h.sender t'⟩
    intro c hc
    rcases hcall with hsame | ⟨hnone, -⟩
    · exact h.sender t c (hsame ▸ hc)
    · rw [hnone] at hc
      cases hc
  · obtain ⟨hin, hwaits⟩ := h.answers.waits c hc hans
    by_cases ht : (s.call c).caller = t
    · dsimp only
      rw [ht, Function.update_self]
      rw [ht] at hin hwaits
      have hsame : p.call = (s.pc t).call := by
        refine hcall.resolve_right fun ⟨_, hall⟩ => ?_
        have hans : s.answered c = false := hans
        rw [hall c hin] at hans
        cases hans
      refine ⟨hsame.trans hin, fun hpast => ?_⟩
      rcases hblocked hpast with htrue | ⟨hpast, hsame⟩
      · exact htrue
      · exact hsame.trans (hwaits hpast)
    · dsimp only
      rw [Function.update_of_ne ht, hmutex _ ht]
      exact ⟨hin, hwaits⟩
  · obtain ⟨q, hq⟩ := h.server e t' ht'
    by_cases ht : t' = t
    · subst ht
      obtain ⟨q', hq'⟩ := hserver e ht'
      exact ⟨q', (Function.update_self ..).trans hq'⟩
    · exact ⟨q, (Function.update_of_ne ht ..).trans hq⟩
  · exact (Function.forall_update_iff _ fun _ (p : TaskPc) => ∀ r q, p = .reply r q →
      Owed s.call s.nextCall r ∧ (q = .unblock → (s.call r.call).replied = true)).mpr
        ⟨hreply, fun t' _ => h.reply t'⟩

/-- A task is unblocked that does not wait. -/
theorem Inv.unblock (h : Inv s) {t : ℕ} {signal : ℕ → Signal} {signaled : ℕ → Bool} (ht : s.NotWaiting t) :
    Inv (CallState.unblock { s with signal, signaled } t) := by
  refine ⟨h.sender, ⟨h.answers.returned, fun c hc hans => ?_⟩, h.server, h.queue, h.tasks, h.reply⟩
  · obtain ⟨hin, hwaits⟩ := h.answers.waits c hc hans
    refine ⟨hin, fun hpast => ?_⟩
    show update s.mutex t false (s.call c).caller = true
    by_cases heq : (s.call c).caller = t
    · subst heq
      have hans : s.answered c = false := hans
      rw [ht c hin hpast] at hans
      cases hans
    · rw [Function.update_of_ne heq]
      exact hwaits hpast

/-- More becomes known of a message. -/
theorem Inv.mark (h : Inv s) {c : ℕ} {m : Call} {endpoint : ℕ → Ipc.Endpoint ℕ}
    (hcaller : m.caller = (s.call c).caller) (hcall : m.isCall = (s.call c).isCall)
    (hanswered : s.answered c = true → m.answered = true)
    (hreturned : m.returned = true → m.answered = true)
    (hreplied : (s.call c).replied = true → m.replied = true)
    (hqueue : ∀ e, ∃ l, (endpoint e).syncQueue.Repr l ∧ (l.map SyncEntry.kernelMemMsg).Nodup ∧
      ∀ x ∈ l, Waiting (update s.call c m) s.nextCall e x) :
    Inv { s with endpoint, call := update s.call c m } := by
  refine ⟨fun t c' hc' => ?_, ⟨fun c' hc' => ?_, fun c' hc' => ?_⟩, h.server, hqueue,
    fun r hr => (h.tasks r hr).mark hcall, fun t r p hp => ?_⟩
  · obtain ⟨hlt, ht⟩ := h.sender t c' hc'
    refine ⟨hlt, ?_⟩
    dsimp only
    by_cases heq : c' = c
    · rw [heq, Function.update_self, hcaller, ← heq, ht]
    · rw [Function.update_of_ne heq, ht]
  · dsimp only [CallState.answered]
    by_cases heq : c' = c
    · rw [heq, Function.update_self]
      exact hreturned
    · rw [Function.update_of_ne heq]
      exact h.answers.returned c' hc'
  · dsimp only [CallState.answered]
    by_cases heq : c' = c
    · rw [heq, Function.update_self, hcaller]
      intro hans
      refine h.answers.waits c (heq ▸ hc') (Bool.eq_false_iff.mpr fun htrue => ?_)
      rw [hanswered htrue] at hans
      cases hans
    · rw [Function.update_of_ne heq]
      exact h.answers.waits c' hc'
  · obtain ⟨howed, hwritten⟩ := h.reply t r p hp
    refine ⟨howed.mark hcall, fun hunblock => ?_⟩
    dsimp only
    by_cases heq : r.call = c
    · rw [heq, Function.update_self]
      exact hreplied (heq ▸ hwritten hunblock)
    · rw [Function.update_of_ne heq]
      exact hwritten hunblock

/-- A message is pushed. -/
theorem Inv.push (h : Inv s) {t e : ℕ} {isCall : Bool} (ht : (s.pc t).call = none)
    (hserver : ∀ e, s.awaitingServer e ≠ some t) :
    Inv { s with
      endpoint := update s.endpoint e ((s.endpoint e).send s.nextCall t isCall)
      call := update s.call s.nextCall { caller := t, endpoint := e, isCall }
      nextCall := s.nextCall + 1
      pc := update s.pc t (.send e (.disable (some s.nextCall))) } := by
  have hne : ∀ {c}, c < s.nextCall → c ≠ s.nextCall := fun hc heq => Nat.lt_irrefl _ (heq ▸ hc)
  have hcall : ∀ {c}, c < s.nextCall →
      update s.call s.nextCall { caller := t, endpoint := e, isCall } c = s.call c :=
    fun hc => Function.update_of_ne (hne hc) ..
  refine ⟨?_, ⟨fun c hc => ?_, fun c hc => ?_⟩, fun e' t' ht' => ?_, fun e' => ?_,
    fun r hr => (h.tasks r hr).congr (hcall (h.tasks r hr).old) (Nat.le_succ _), ?_⟩
  · refine (Function.forall_update_iff _ fun t' (p : TaskPc) => ∀ c, p.call = some c →
      c < s.nextCall + 1 ∧ (update s.call s.nextCall { caller := t, endpoint := e, isCall } c).caller = t').mpr
        ⟨fun c hc => ?_, fun t' _ c hc => ?_⟩
    · cases hc
      exact ⟨Nat.lt_succ_self _, by rw [Function.update_self]⟩
    · obtain ⟨hlt, ht'⟩ := h.sender t' c hc
      exact ⟨Nat.lt_succ_of_lt hlt, by rw [hcall hlt, ht']⟩
  · dsimp only [answered]
    by_cases heq : c = s.nextCall
    · rw [heq, Function.update_self]
      exact fun hret => (nomatch hret)
    · rw [Function.update_of_ne heq]
      exact h.answers.returned c (Nat.lt_of_le_of_ne (Nat.le_of_lt_succ hc) heq)
  · dsimp only [answered]
    by_cases heq : c = s.nextCall
    · rw [heq, Function.update_self, Function.update_self]
      exact fun _ => ⟨rfl, fun hpast => (nomatch hpast)⟩
    · rw [Function.update_of_ne heq]
      intro hans
      obtain ⟨hin, hwaits⟩ := h.answers.waits c (Nat.lt_of_le_of_ne (Nat.le_of_lt_succ hc) heq) hans
      have hother : (s.call c).caller ≠ t := fun heq' => by
        rw [heq', ht] at hin
        cases hin
      rw [Function.update_of_ne hother]
      exact ⟨hin, hwaits⟩
  · obtain ⟨q, hq⟩ := h.server e' t' ht'
    have hother : t' ≠ t := by
      rintro rfl
      exact hserver e' ht'
    exact ⟨q, (Function.update_of_ne hother ..).trans hq⟩
  · obtain ⟨l, hrepr, hnodup, hwaiting⟩ := h.queue e'
    have hold : ∀ x ∈ l, Waiting (update s.call s.nextCall { caller := t, endpoint := e, isCall })
        (s.nextCall + 1) e' x := fun x hx =>
      (hwaiting x hx).congr (hcall (hwaiting x hx).old) (Nat.le_succ _)
    by_cases he : e' = e
    · subst he
      refine ⟨l ++ [(s.endpoint e').syncEntry s.nextCall t isCall], ?_, ?_, fun x hx => ?_⟩
      · dsimp only
        rw [Function.update_self]
        exact Ring.repr_push hrepr _
      · exact Ipc.nodup_push hnodup fun x hx => hne (hwaiting x hx).old
      · rcases List.mem_append.mp hx with hx | hx
        · exact hold x hx
        · cases List.mem_singleton.mp hx
          refine ⟨Nat.lt_succ_self _, ?_, ?_, ?_, ?_⟩ <;> dsimp only [Ipc.Endpoint.syncEntry] <;>
            rw [Function.update_self]
    · refine ⟨l, ?_, hnodup, hold⟩
      dsimp only
      rw [Function.update_of_ne he]
      exact hrepr
  · refine (Function.forall_update_iff _ fun _ (p : TaskPc) => ∀ r q, p = .reply r q →
      Owed (update s.call s.nextCall { caller := t, endpoint := e, isCall }) (s.nextCall + 1) r ∧
        (q = .unblock →
          (update s.call s.nextCall { caller := t, endpoint := e, isCall } r.call).replied = true)).mpr
        ⟨fun r q hq => (nomatch hq), fun t' _ r q hq => ?_⟩
    obtain ⟨howed, hwritten⟩ := h.reply t' r q hq
    refine ⟨howed.congr (hcall howed.old) (Nat.le_succ _), fun hunblock => ?_⟩
    rw [hcall howed.old]
    exact hwritten hunblock

/-- An endpoint changes, but not its sync queue. -/
theorem Inv.setEndpoint (h : Inv s) {e : ℕ} {e' : Ipc.Endpoint ℕ}
    (hsync : e'.syncQueue = (s.endpoint e).syncQueue) : Inv { s with endpoint := update s.endpoint e e' } := by
  refine ⟨h.sender, ⟨h.answers.returned, h.answers.waits⟩, h.server, fun e₁ => ?_, h.tasks, h.reply⟩
  have hsame : (update s.endpoint e e' e₁).syncQueue = (s.endpoint e₁).syncQueue := by
    by_cases he : e₁ = e
    · rw [he, Function.update_self, hsync]
    · rw [Function.update_of_ne he]
  show ∃ l, (update s.endpoint e e' e₁).syncQueue.Repr l ∧ _
  rw [hsame]
  exact h.queue e₁

/-- The awaited servers are in `ipc_receive`. -/
theorem Inv.setServer (h : Inv s) {awaitingServer : ℕ → Option ℕ} {signaled : ℕ → Bool}
    (hserver : ∀ e t, awaitingServer e = some t → ∃ p, s.pc t = .receive e p) :
    Inv { s with awaitingServer, signaled } :=
  ⟨h.sender, ⟨h.answers.returned, h.answers.waits⟩, hserver, h.queue, h.tasks, h.reply⟩

/-- A task gets the return task of a call, or a copy of one. -/
theorem Inv.addTask (h : Inv s) {r : ReturnTask} (hr : Owed s.call s.nextCall r) :
    Inv { s with returnTasks := s.returnTasks ++ [r] } := by
  refine ⟨h.sender, ⟨h.answers.returned, h.answers.waits⟩, h.server, h.queue, fun r' hr' => ?_, h.reply⟩
  rcases List.mem_append.mp hr' with hr' | hr'
  · exact h.tasks r' hr'
  · cases List.mem_singleton.mp hr'
    exact hr

@[simp] theorem deliver_pc (r : Ipc.Received ℕ) : (s.deliver r).pc = s.pc := by
  rcases r with (_ | x) | _ | _ | _
  · rfl
  · simp only [deliver]
    split <;> rfl
  all_goals rfl

@[simp] theorem deliver_awaitingServer (r : Ipc.Received ℕ) :
    (s.deliver r).awaitingServer = s.awaitingServer := by
  rcases r with (_ | x) | _ | _ | _
  · rfl
  · simp only [deliver]
    split <;> rfl
  all_goals rfl

/-- A receiver takes a message. -/
theorem Inv.deliver (h : Inv s) {e : ℕ} {r : Ipc.Received ℕ} {e' : Ipc.Endpoint ℕ}
    (hleaves : Ipc.Leaves (s.endpoint e) r e') :
    Inv (CallState.deliver { s with endpoint := update s.endpoint e e' } r) := by
  cases r with
  | taken x =>
    cases x with
    | async => exact h.setEndpoint hleaves
    | sync x =>
      have hpop : (s.endpoint e).syncQueue.pop = some (x, e'.syncQueue) := hleaves
      obtain ⟨l, hrepr, hnodup, hwaiting⟩ := h.queue e
      obtain ⟨l', rfl, hrepr'⟩ := Ring.repr_of_pop hrepr hpop
      have hx : Waiting s.call s.nextCall e x := hwaiting x List.mem_cons_self
      rw [List.map_cons, List.nodup_cons] at hnodup
      have hmark : Inv { s with
          endpoint := update s.endpoint e e'
          call := update s.call x.kernelMemMsg { s.call x.kernelMemMsg with taken := true } } := by
        refine h.mark rfl rfl answered_taken (fun hret => ?_) id fun e₁ => ?_
        · exact answered_taken (h.answers.returned _ hx.old hret)
        · by_cases he : e₁ = e
          · subst he
            refine ⟨l', ?_, hnodup.2, fun y hy => ?_⟩
            · rw [Function.update_self]
              exact hrepr'
            · refine (hwaiting y (List.mem_cons_of_mem x hy)).congr ?_ (Nat.le_refl _)
              refine Function.update_of_ne (fun heq => hnodup.1 ?_) ..
              rw [← heq]
              exact List.mem_map_of_mem hy
          · obtain ⟨l₁, hrepr₁, hnodup₁, hwaiting₁⟩ := h.queue e₁
            refine ⟨l₁, ?_, hnodup₁, fun y hy => (hwaiting₁ y hy).congr ?_ (Nat.le_refl _)⟩
            · rw [Function.update_of_ne he]
              exact hrepr₁
            · refine Function.update_of_ne (fun heq => he ?_) ..
              rw [← (hwaiting₁ y hy).endpoint, heq, hx.endpoint]
      cases hcall : x.isCall with
      | true =>
        simp only [CallState.deliver, hcall, if_true]
        exact hmark.addTask (Owed.mark ⟨hx.old, hx.isCall.trans hcall⟩ rfl)
      | false =>
        simp only [CallState.deliver, hcall]
        refine hmark.unblock fun c hc _ => ?_
        -- its sender waits for this message, which is taken now
        have hans : s.answered x.kernelMemMsg = false := by
          rw [answered, Call.answered, hx.isCall, hcall]
          exact hx.taken
        obtain ⟨hin, -⟩ := h.answers.waits x.kernelMemMsg hx.old hans
        rw [hx.caller] at hin
        have heq : x.kernelMemMsg = c := Option.some.inj (hin.symm.trans hc)
        subst heq
        show Call.answered (update s.call _ _ _) = true
        rw [Function.update_self, Call.answered, hx.isCall, hcall]
        rfl
  | interrupted => exact h.setEndpoint hleaves
  | isNull => exact h.setEndpoint hleaves
  | error => exact h.setEndpoint hleaves

/-! ### Steps -/

/-- What the invariant asks of the server and of a reply does not concern a
task in a send. -/
theorem Inv.not_server (h : Inv s) {t : ℕ} (ht : ∀ e p, s.pc t ≠ .receive e p) (e : ℕ) :
    s.awaitingServer e ≠ some t := by
  intro he
  obtain ⟨p, hp⟩ := h.server e t he
  exact ht e p hp

/-- A sender moves on in its send. -/
theorem Inv.moveSend (h : Inv s) {t e : ℕ} {p p' : SendPc} {endpointLock : ℕ → Bool} {schedLock : Bool}
    {mutex : ℕ → Bool} (ht : s.pc t = .send e p) (hcall : p'.call = p.call)
    (hblocked : p'.pastBlock = true → mutex t = true ∨ p.pastBlock = true ∧ mutex t = s.mutex t)
    (hmutex : ∀ t' ≠ t, mutex t' = s.mutex t') :
    Inv { s with endpointLock, schedLock, mutex, pc := update s.pc t (.send e p') } := by
  refine h.move ?_ ?_ hmutex (fun e' he' => ?_) (fun r q hq => nomatch hq) fun r hr => hr
  · rw [ht]
    exact .inl hcall
  · rw [ht]
    exact hblocked
  · exact absurd he' (h.not_server (fun e p hp => by rw [ht] at hp; cases hp) e')

/-- A sender that is not blocked any more has its answer. -/
theorem Inv.sent (h : Inv s) {t e c : ℕ} {p : SendPc} (ht : s.pc t = .send e p) (hc : p.call = some c)
    (hpast : p.pastBlock = true) (hmutex : s.mutex t = false) : Inv (s.sent t c) := by
  have hin : (s.pc t).call = some c := by
    rw [ht]
    exact hc
  obtain ⟨hlt, hcaller⟩ := h.sender t c hin
  have hans : s.answered c = true := by
    by_contra hno
    obtain ⟨-, hwaits⟩ := h.answers.waits c hlt (Bool.eq_false_iff.mpr hno)
    rw [hcaller, ht, hmutex] at hwaits
    cases hwaits hpast
  have hmark : Inv { s with call := update s.call c { s.call c with returned := true } } := by
    refine h.mark rfl rfl id (fun _ => hans) id fun e => ?_
    obtain ⟨l, hrepr, hnodup, hwaiting⟩ := h.queue e
    exact ⟨l, hrepr, hnodup, fun x hx => (hwaiting x hx).mark rfl rfl rfl rfl⟩
  refine hmark.move (.inr ⟨rfl, fun c' hc' => ?_⟩) (fun hpast => nomatch hpast) (fun _ _ => rfl)
    (fun e' he' => ?_) (fun r q hq => nomatch hq) fun r hr => hr
  · have heq : c' = c := Option.some.inj (hc'.symm.trans hin)
    subst heq
    show Call.answered (update s.call _ _ _) = true
    rw [Function.update_self]
    exact hans
  · exact absurd he' (h.not_server (fun e p hp => by rw [ht] at hp; cases hp) e')

theorem inv_sendStep (h : Inv s) {t e : ℕ} {p : SendPc} (ht : s.pc t = .send e p)
    (hs : s.sendStep t e p = some s') : Inv s' := by
  cases p with
  | lock kind =>
    obtain ⟨-, hs⟩ := Option.ite_none_left_eq_some.mp hs
    cases hs
    exact h.moveSend ht rfl (fun hpast => nomatch hpast) fun _ _ => rfl
  | push kind =>
    cases kind with
    | sync isCall =>
      cases hs
      refine h.push (by rw [ht]; rfl) (h.not_server fun e p hp => ?_)
      rw [ht] at hp
      cases hp
    | async =>
      cases hs
      have hasync : Inv { s with endpoint := update s.endpoint e ((s.endpoint e).sendAsync 0) } := h.setEndpoint rfl
      exact hasync.moveSend ht rfl (fun hpast => nomatch hpast) fun _ _ => rfl
  | disable c =>
    obtain ⟨-, hs⟩ := Option.ite_none_left_eq_some.mp hs
    cases hs
    cases c <;> exact h.moveSend ht rfl (fun hpast => nomatch hpast) fun _ _ => rfl
  | blockSelf c =>
    obtain ⟨-, hs⟩ := Option.ite_none_left_eq_some.mp hs
    cases hs
    exact h.moveSend ht rfl (fun _ => .inl (Function.update_self ..)) fun _ ht' => Function.update_of_ne ht' ..
  | unblockServer c =>
    cases hserver : s.awaitingServer e with
    | none =>
      simp only [sendStep, hserver] at hs
      cases hs
      exact h.moveSend ht rfl (fun hpast => .inr ⟨hpast, rfl⟩) fun _ _ => rfl
    | some server =>
      simp only [sendStep, hserver] at hs
      cases hs
      obtain ⟨q, hq⟩ := h.server e server hserver
      have hwoken : Inv (s.unblock server) := h.unblock fun c hc => by
        rw [hq] at hc
        cases hc
      exact hwoken.moveSend ht rfl (fun hpast => .inr ⟨hpast, rfl⟩) fun _ _ => rfl
  | unlock c =>
    cases hs
    exact h.moveSend ht rfl (fun hpast => .inr ⟨hpast, rfl⟩) fun _ _ => rfl
  | reenable c =>
    cases c with
    | none =>
      cases hs
      refine h.move (.inl (by rw [ht]; rfl)) (fun hpast => nomatch hpast) (fun _ _ => rfl) (fun e' he' => ?_)
        (fun r q hq => nomatch hq) fun r hr => hr
      exact absurd he' (h.not_server (fun e p hp => by rw [ht] at hp; cases hp) e')
    | some c =>
      cases hs
      exact h.moveSend ht rfl (fun _ => .inr ⟨rfl, rfl⟩) fun _ _ => rfl
  | park c =>
    by_cases hmutex : s.mutex t = true
    · rw [sendStep, if_pos hmutex] at hs
      obtain ⟨-, hs⟩ := Option.ite_none_left_eq_some.mp hs
      cases hs
      exact h.moveSend ht rfl (fun hpast => .inr ⟨hpast, rfl⟩) fun _ _ => rfl
    · simp only [sendStep, hmutex] at hs
      cases hs
      exact h.sent ht rfl rfl (Bool.eq_false_iff.mpr hmutex)
  | parked c =>
    obtain ⟨hmutex, hs⟩ := Option.ite_none_left_eq_some.mp hs
    cases hs
    exact h.sent ht rfl rfl (Bool.eq_false_iff.mpr hmutex)

/-- A task moves on outside of `ipc_send`. -/
theorem Inv.moveOutside (h : Inv s) {t : ℕ} {p : TaskPc} {endpointLock : ℕ → Bool} {signal : ℕ → Signal}
    {mutex : ℕ → Bool} {returnTasks : List ReturnTask} (ht : (s.pc t).call = none) (hp : p.call = none)
    (hpast : p.pastBlock = false) (hmutex : ∀ t' ≠ t, mutex t' = s.mutex t')
    (hserver : ∀ e, s.awaitingServer e = some t → ∃ q, p = .receive e q)
    (hreply : ∀ r q, p = .reply r q →
      Owed s.call s.nextCall r ∧ (q = .unblock → (s.call r.call).replied = true))
    (htasks : ∀ r ∈ returnTasks, r ∈ s.returnTasks) :
    Inv { s with endpointLock, signal, mutex, returnTasks, pc := update s.pc t p } := by
  refine h.move (.inl (hp.trans ht.symm)) (fun htrue => ?_) hmutex hserver hreply htasks
  rw [hpast] at htrue
  cases htrue

/-- A receiver moves on in `ipc_receive`. -/
theorem Inv.moveReceive (h : Inv s) {t e : ℕ} {p p' : ReceivePc} {mutex : ℕ → Bool}
    (ht : s.pc t = .receive e p) (hmutex : ∀ t' ≠ t, mutex t' = s.mutex t') :
    Inv { s with mutex, pc := update s.pc t (.receive e p') } := by
  refine h.moveOutside (by rw [ht]; rfl) rfl rfl hmutex (fun e' he' => ?_) (fun r q hq => nomatch hq) fun r hr => hr
  obtain ⟨q, hq⟩ := h.server e' t he'
  rw [ht] at hq
  cases hq
  exact ⟨p', rfl⟩

theorem inv_receiveStep (h : Inv s) {t e : ℕ} {p : ReceivePc} (ht : s.pc t = .receive e p)
    (hs : s.receiveStep t e p = some s') : Inv s' := by
  cases p with
  | enter =>
    obtain ⟨-, hs⟩ := Option.ite_none_left_eq_some.mp hs
    cases hs
    have hserver : Inv { s with awaitingServer := update s.awaitingServer e (some t) } := by
      refine @Inv.setServer s h (update s.awaitingServer e (some t)) s.signaled fun e' t' he' => ?_
      by_cases heq : e' = e
      · rw [heq, Function.update_self] at he'
        cases he'
        exact ⟨.enter, heq ▸ ht⟩
      · rw [Function.update_of_ne heq] at he'
        exact h.server e' t' he'
    exact hserver.moveReceive ht fun _ _ => rfl
  | test =>
    obtain ⟨-, hs⟩ := Option.ite_none_left_eq_some.mp hs
    cases hs
    exact h.moveReceive ht fun _ _ => rfl
  | block =>
    obtain ⟨-, hs⟩ := Option.ite_none_left_eq_some.mp hs
    cases hs
    exact h.moveReceive ht fun _ ht' => Function.update_of_ne ht' ..
  | park =>
    by_cases hmutex : s.mutex t = true
    · rw [receiveStep, if_pos hmutex] at hs
      obtain ⟨-, hs⟩ := Option.ite_none_left_eq_some.mp hs
      cases hs
      exact h.moveReceive ht fun _ _ => rfl
    · simp only [receiveStep, hmutex] at hs
      cases hs
      exact h.moveReceive ht fun _ _ => rfl
  | parked =>
    obtain ⟨-, hs⟩ := Option.ite_none_left_eq_some.mp hs
    cases hs
    exact h.moveReceive ht fun _ _ => rfl
  | take =>
    obtain ⟨-, hs⟩ := Option.ite_none_left_eq_some.mp hs
    obtain ⟨⟨r, e'⟩, hreceive, rfl⟩ := Option.map_eq_some_iff.mp hs
    have hnone : ∀ e₁ t', update s.awaitingServer e none e₁ = some t' →
        e₁ ≠ e ∧ s.awaitingServer e₁ = some t' := by
      intro e₁ t' he₁
      by_cases heq : e₁ = e
      · rw [heq, Function.update_self] at he₁
        cases he₁
      · rw [Function.update_of_ne heq] at he₁
        exact ⟨heq, he₁⟩
    have hserver : Inv { s with
        awaitingServer := update s.awaitingServer e none, signaled := update s.signaled t false } :=
      h.setServer fun e₁ t' he₁ => h.server e₁ t' (hnone e₁ t' he₁).2
    refine (hserver.deliver (Ipc.receive_leaves hreceive)).moveOutside ?_ rfl rfl (fun _ _ => rfl)
      (fun e₁ he₁ => ?_) (fun r q hq => nomatch hq) fun r hr => hr
    · rw [deliver_pc]
      show (s.pc t).call = none
      rw [ht]
      rfl
    · -- it was the awaited server of this endpoint only
      rw [deliver_awaitingServer] at he₁
      obtain ⟨hne, he₁⟩ := hnone e₁ t he₁
      obtain ⟨q, hq⟩ := h.server e₁ t he₁
      rw [ht] at hq
      cases hq
      exact absurd rfl hne

theorem inv_replyStep (h : Inv s) {t : ℕ} {r : ReturnTask} {p : ReplyPc} (ht : s.pc t = .reply r p)
    (hin : s.NoStray (.task t)) : Inv (s.replyStep t r p) := by
  have hserver : ∀ e, s.awaitingServer e ≠ some t := h.not_server fun e p hp => by
    rw [ht] at hp
    cases hp
  have hout : (s.pc t).call = none := by
    rw [ht]
    rfl
  obtain ⟨howed, hwritten⟩ := h.reply t r p ht
  cases p with
  | write =>
    have hmark : Inv { s with call := update s.call r.call { s.call r.call with replied := true } } := by
      refine h.mark rfl rfl answered_replied (fun hret => ?_) (fun _ => rfl) fun e => ?_
      · exact answered_replied (h.answers.returned _ howed.old hret)
      · obtain ⟨l, hrepr, hnodup, hwaiting⟩ := h.queue e
        exact ⟨l, hrepr, hnodup, fun x hx => (hwaiting x hx).mark rfl rfl rfl rfl⟩
    refine hmark.moveOutside hout rfl rfl (fun _ _ => rfl)
      (fun e he => absurd he (hserver e)) (fun r' q hq => ?_) fun r hr => hr
    cases hq
    refine ⟨howed.mark rfl, fun _ => ?_⟩
    show Call.replied (update s.call _ _ _) = true
    rw [Function.update_self]
  | unblock =>
    have hwoken : Inv (s.unblock r.target) := by
      refine h.unblock fun c hc hpast => ?_
      by_cases heq : (s.pc r.target).call = some r.call
      · -- the reply is to the call the target is in
        have hsame : r.call = c := Option.some.inj (heq.symm.trans hc)
        subst hsame
        rw [answered, Call.answered, howed.isCall, if_pos rfl]
        exact hwritten rfl
      · have hmem : r.target ∈ s.unrelated (.task t) := by simp [unrelated, ht, heq]
        exact hin r.target hmem c hc hpast
    refine hwoken.moveOutside hout rfl rfl (fun _ _ => rfl)
      (fun e he => absurd he (hserver e)) (fun r' q hq => ?_) fun r hr => hr
    cases hq
    exact ⟨howed, fun hno => nomatch hno⟩
  | release =>
    refine h.moveOutside hout rfl rfl (fun _ _ => rfl)
      (fun e he => absurd he (hserver e)) (fun r' q hq => nomatch hq) fun r hr => List.mem_of_mem_erase hr

theorem inv_taskStep (h : Inv s) {t : ℕ} (hin : s.NoStray (.task t)) (hs : s.taskStep t = some s') : Inv s' := by
  unfold taskStep at hs
  cases ht : s.pc t with
  | idle =>
    rw [ht] at hs
    cases hs
  | send e p =>
    rw [ht] at hs
    exact inv_sendStep h ht hs
  | receive e p =>
    rw [ht] at hs
    exact inv_receiveStep h ht hs
  | reply r p =>
    rw [ht] at hs
    cases hs
    exact inv_replyStep h ht hin
  | await g p =>
    rw [ht] at hs
    obtain ⟨⟨g', mutex, p'⟩, -, rfl⟩ := Option.map_eq_some_iff.mp hs
    have hserver : ∀ e, s.awaitingServer e ≠ some t := h.not_server fun e p hp => by
      rw [ht] at hp
      cases hp
    cases p' <;> exact h.moveOutside (by rw [ht]; rfl) rfl rfl (fun _ ht' => Function.update_of_ne ht' ..)
      (fun e he => absurd he (hserver e)) (fun r q hq => nomatch hq) fun r hr => hr

theorem inv_start (h : Inv s) {t : ℕ} {p : TaskPc} (hp : p.call = none) (hpast : p.pastBlock = false)
    (hreply : ∀ r q, p = .reply r q →
      Owed s.call s.nextCall r ∧ (q = .unblock → (s.call r.call).replied = true))
    (hs : s.start t p = some s') : Inv s' := by
  unfold start at hs
  cases ht : s.pc t with
  | idle =>
    rw [ht] at hs
    cases hs
    refine h.moveOutside (by rw [ht]; rfl) hp hpast (fun _ _ => rfl) (fun e he => ?_) hreply fun r hr => hr
    exact absurd he (h.not_server (fun e p hp => by rw [ht] at hp; cases hp) e)
  | _ =>
    rw [ht] at hs
    cases hs

theorem inv_step (a : CallAction) (h : Inv s) (hin : s.NoStray a) (hs : s.step a = some s') : Inv s' := by
  cases a with
  | send t e kind => exact inv_start h (p := .send e (.lock kind)) rfl rfl (fun r q hq => nomatch hq) hs
  | receive t e => exact inv_start h (p := .receive e .enter) rfl rfl (fun r q hq => nomatch hq) hs
  | receiveAsync t e =>
    cases ht : s.pc t with
    | idle =>
      simp only [step, ht] at hs
      obtain ⟨-, hs⟩ := Option.ite_none_left_eq_some.mp hs
      obtain ⟨⟨r, e'⟩, hreceive, rfl⟩ := Option.map_eq_some_iff.mp hs
      exact h.deliver (Ipc.receiveAsync_leaves hreceive)
    | _ =>
      simp only [step, ht] at hs
      cases hs
  | reply t k =>
    obtain ⟨r, hk, hs⟩ := Option.bind_eq_some_iff.mp hs
    refine inv_start h rfl rfl (fun r' q hq => ?_) hs
    cases hq
    exact ⟨h.tasks r (List.mem_of_getElem? hk), fun hno => nomatch hno⟩
  | await t g kind => exact inv_start h (p := .await g (.enter kind)) rfl rfl (fun r q hq => nomatch hq) hs
  | task t => exact inv_taskStep h hin hs
  | getPhysFails t =>
    simp only [step] at hs
    split at hs
    · rename_i e isCall ht
      cases hs
      refine h.moveOutside (by rw [ht]; rfl) rfl rfl (fun _ _ => rfl) (fun e he => ?_)
        (fun r q hq => nomatch hq) fun r hr => hr
      exact absurd he (h.not_server (fun e p hp => by rw [ht] at hp; cases hp) e)
    · cases hs
  | trigger g j =>
    obtain ⟨⟨g', woken⟩, hstep, rfl⟩ := Option.map_eq_some_iff.mp hs
    cases woken with
    | none => exact ⟨h.sender, ⟨h.answers.returned, h.answers.waits⟩, h.server, h.queue, h.tasks, h.reply⟩
    | some t =>
      obtain ⟨k, elt, hvisit, helt, rfl⟩ := Signal.triggerStep_wakes hstep
      have hmem : elt.task ∈ s.unrelated (.trigger g j) := by simp [unrelated, hvisit, helt]
      exact h.unblock (hin elt.task hmem)
  | copy k =>
    obtain ⟨r, hk, rfl⟩ := Option.map_eq_some_iff.mp hs
    exact h.addTask (h.tasks r (List.mem_of_getElem? hk))
  | release k =>
    cases hs
    exact ⟨h.sender, ⟨h.answers.returned, h.answers.waits⟩, h.server, h.queue,
      fun r hr => h.tasks r (List.mem_of_mem_eraseIdx hr), h.reply⟩
  | launch t =>
    cases hs
    exact h.unblock (hin t rfl)

/-- **A call returns with its reply.** After any steps of tasks and triggers,
in any order, in which no other unblock comes upon a sender that waits: every
`ipc_send` that has returned has its answer, and every other one has its caller
inside and blocked. -/
theorem calls_answered (ops : List CallAction) (s : CallState) (hin : Lib.Meets step NoStray ops {})
    (hrun : Lib.run step ops {} = some s) : CallsAnswered s :=
  (Lib.run_invariant_of_meets (fun _ a _ h hin hs => inv_step a h hin hs) ops hin inv_init hrun).answers

/-- The task 0 calls, the task 1 takes the call and replies. -/
def callAndReply : List CallAction :=
  .send 0 0 (.sync true) :: List.replicate 8 (.task 0) ++ .receive 1 0 :: List.replicate 3 (.task 1) ++
    .reply 1 0 :: List.replicate 3 (.task 1) ++ [.task 0]

theorem calls_answered_one : ((Lib.run step callAndReply {}).map fun s => (s.call 0).returned) = some true ∧
    ∀ s, Lib.run step callAndReply {} = some s → CallsAnswered s :=
  ⟨by decide, fun s hs => calls_answered callAndReply s (by decide) hs⟩

/-- The task 0 waits for signals as well. It calls, a trigger unblocks it, and
its call returns while its message is still in the queue. -/
theorem call_interrupted : ∃ s, Lib.run step (.await 0 0 .async :: List.replicate 2 (.task 0) ++
      .send 0 0 (.sync true) :: List.replicate 8 (.task 0) ++ List.replicate 4 (.trigger 0 0) ++ [.task 0]) {} =
    some s ∧ (s.call 0).returned = true ∧ (s.endpoint 0).hasMessage = true ∧ ¬ CallsAnswered s := by
  refine ⟨_, rfl, by decide, by decide, fun h => ?_⟩
  exact absurd (h.returned 0 (by decide) (by decide)) (by decide)

end CallState
end WingOS
