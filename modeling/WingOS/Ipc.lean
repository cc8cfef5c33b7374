/-
# Endpoints

The two queues of an endpoint (`kernel/generic/ipc_asset.hpp`, `ipc.cpp`): the
messages whose sender waits are in the sync queue, the others in the async
queue, each with the tick at which it was sent. A receive takes the older of
the two first messages. It compares not the messages but two cached ticks,
which a send refreshes and a receive refreshes only when the queue it took
from is not empty after it.

The cached tick of a queue that is not empty is right (`Inv.lastAsync`,
`Inv.lastSync`); that of an empty queue may be anything. `ipc_receive` tests
both for emptiness, so the messages come out in the order they were sent.
`ipc_receive_async` does not test the sync queue, so it
agrees with `ipc_receive` only if that queue is not empty or its stale tick
happens to be the larger one (`receiveAsync_agrees_iff`).

A sync entry refers to the task of its sender. Where the sync ring grows while
its entries wrap, it assigns them to cells that never held one, and the
assignment drops the reference it finds there (`Endpoint.sendAssigned`). The
messages come out in order exactly as long as it finds none
(`received_in_order_iff`).

The type of messages is a parameter. A sync entry stands for the message
itself: the sender cannot touch it, as it waits until the message is taken.
Ticks do not overflow.

Key definitions: `Endpoint`, `Endpoint.receive`, `Endpoint.receiveAsync`,
`Channel.step`, `Channel.stepAssigned`.
Key theorems: `inv_step`, `received_in_order_iff`, `receiveAsync_agrees_iff`.
-/
import WingOS.Lib.Run
import WingOS.Ring
import Mathlib.Algebra.Group.Nat.Defs
import Mathlib.Data.List.Nodup

namespace WingOS
namespace Ipc

variable {M : Type*}

structure SyncEntry (M : Type*) where
  kernelMemMsg : M
  callee : ℕ
  isCall : Bool
  addedTick : ℕ

structure AsyncEntry (M : Type*) where
  targetMsg : M
  addedTick : ℕ

def LONG_MAX : ℕ := 2 ^ 63 - 1

/-- `kernel::IpcEndpoint`, its queues. -/
structure Endpoint (M : Type*) where
  tick : ℕ := 1
  asyncQueue : Ring (AsyncEntry M) := {}
  lastAsyncMsgTick : ℕ := LONG_MAX
  syncQueue : Ring (SyncEntry M) := {}
  lastSyncMsgTick : ℕ := LONG_MAX

/-- The entry a receive takes from its queue. -/
inductive Taken (M : Type*)
  | async (entry : AsyncEntry M)
  | sync (entry : SyncEntry M)

def Taken.tick : Taken M → ℕ
  | .async e => e.addedTick
  | .sync e => e.addedTick

def Taken.msg : Taken M → M
  | .async e => e.targetMsg
  | .sync e => e.kernelMemMsg

/-- How a receive returns. -/
inductive Received (M : Type*)
  | taken (t : Taken M)
  | interrupted
  | isNull
  | error (text : String)

namespace Endpoint

/-- `async_queue.head().added_tick`, read only when the queue is not empty. -/
def asyncHeadTick (e : Endpoint M) : ℕ := (e.asyncQueue.front.map AsyncEntry.addedTick).getD 0

def syncHeadTick (e : Endpoint M) : ℕ := (e.syncQueue.front.map SyncEntry.addedTick).getD 0

def updateMsgTicks (e : Endpoint M) : Endpoint M :=
  { e with
    lastAsyncMsgTick := if e.asyncQueue.len ≠ 0 then e.asyncHeadTick else LONG_MAX
    lastSyncMsgTick := if e.syncQueue.len ≠ 0 then e.syncHeadTick else LONG_MAX }

def hasMessage (e : Endpoint M) : Bool := e.asyncQueue.len ≠ 0 || e.syncQueue.len ≠ 0

/-- The entry `ipc_send` makes of a message. -/
def syncEntry (e : Endpoint M) (msg : M) (callee : ℕ) (isCall : Bool) : SyncEntry M :=
  { kernelMemMsg := msg, callee, isCall, addedTick := e.tick }

def asyncEntry (e : Endpoint M) (msg : M) : AsyncEntry M := { targetMsg := msg, addedTick := e.tick }

/-- `ipc_send`, once the message is ready to be queued. -/
def send (e : Endpoint M) (msg : M) (callee : ℕ) (isCall : Bool) : Endpoint M :=
  let e := { e with syncQueue := e.syncQueue.push (e.syncEntry msg callee isCall) }
  let e := e.updateMsgTicks
  { e with tick := e.tick + 1 }

/-- `ipc_send` where the growth of `sync_queue` drops the references that the
cells of the new array look as if they had, after `raw`: an `AssetRef` that is
assigned to takes one from its target (`Asset::deref`). The entries of
`async_queue` have no reference. -/
def sendAssigned (e : Endpoint M) (raw : ℕ → ℕ → Bool) (msg : M) (callee : ℕ) (isCall : Bool) : Option (Endpoint M) :=
  (e.syncQueue.pushAssigned raw (e.syncEntry msg callee isCall)).map fun syncQueue =>
    let e := { e with syncQueue }
    let e := e.updateMsgTicks
    { e with tick := e.tick + 1 }

def sendAsync (e : Endpoint M) (msg : M) : Endpoint M :=
  let e := { e with asyncQueue := e.asyncQueue.push (e.asyncEntry msg) }
  let e := e.updateMsgTicks
  { e with tick := e.tick + 1 }

/-- The async branch of both receives. -/
def takeAsync (e : Endpoint M) : Option (Received M × Endpoint M) :=
  e.asyncQueue.pop.map fun (entry, queue) =>
    let e := { e with asyncQueue := queue }
    (.taken (.async entry),
      if e.asyncQueue.len ≠ 0 then { e with lastAsyncMsgTick := e.asyncHeadTick } else e)

/-- The sync branch. -/
def takeSync (e : Endpoint M) : Option (Received M × Endpoint M) :=
  e.syncQueue.pop.map fun (entry, queue) =>
    let e := { e with syncQueue := queue }
    (.taken (.sync entry),
      if e.syncQueue.len ≠ 0 then { e with lastSyncMsgTick := e.syncHeadTick } else e)

/-- `ipc_receive` after its wait loop. -/
def receive (e : Endpoint M) (signaled : Bool) : Option (Received M × Endpoint M) :=
  if signaled then some (.interrupted, e)
  else if (e.lastAsyncMsgTick < e.lastSyncMsgTick ∧ e.asyncQueue.len ≠ 0) ∨ e.syncQueue.len = 0 then
    if e.asyncQueue.len = 0 then some (.error "async_queue is empty", e)
    else e.takeAsync
  else if e.syncQueue.len = 0 ∧ e.asyncQueue.len = 0 then
    some (.error " empty queue return from ipc_receive", e)
  else e.takeSync

/-- `ipc_receive_async`. -/
def receiveAsync (e : Endpoint M) : Option (Received M × Endpoint M) :=
  if e.hasMessage then
    if e.lastAsyncMsgTick < e.lastSyncMsgTick ∧ e.asyncQueue.len ≠ 0 then e.takeAsync
    else if e.syncQueue.len = 0 ∧ e.asyncQueue.len = 0 then
      some (.error " empty queue return from ipc_receive", e)
    else e.takeSync
  else some (.isNull, e)

end Endpoint

section Leaves

variable {e e' : Endpoint M} {r : Received M}

/-- What a receive leaves of the sync queue. -/
def Leaves (e : Endpoint M) (r : Received M) (e' : Endpoint M) : Prop :=
  match r with
  | .taken (.sync entry) => e.syncQueue.pop = some (entry, e'.syncQueue)
  | _ => e'.syncQueue = e.syncQueue

theorem takeAsync_leaves (h : e.takeAsync = some (r, e')) : Leaves e r e' := by
  obtain ⟨⟨entry, queue⟩, -, heq⟩ := Option.map_eq_some_iff.mp h
  cases heq
  show Endpoint.syncQueue (if _ then _ else _) = e.syncQueue
  split <;> rfl

theorem takeSync_leaves (h : e.takeSync = some (r, e')) : Leaves e r e' := by
  obtain ⟨⟨entry, queue⟩, hpop, heq⟩ := Option.map_eq_some_iff.mp h
  cases heq
  show e.syncQueue.pop = some (entry, Endpoint.syncQueue (if _ then _ else _))
  rw [hpop]
  split <;> rfl

theorem receive_leaves {signaled : Bool} (h : e.receive signaled = some (r, e')) : Leaves e r e' := by
  unfold Endpoint.receive at h
  split at h
  · cases h
    rfl
  · split at h
    · split at h
      · cases h
        rfl
      · exact takeAsync_leaves h
    · split at h
      · cases h
        rfl
      · exact takeSync_leaves h

theorem receiveAsync_leaves (h : e.receiveAsync = some (r, e')) : Leaves e r e' := by
  unfold Endpoint.receiveAsync at h
  split at h
  · split at h
    · exact takeAsync_leaves h
    · split at h
      · cases h
        rfl
      · exact takeSync_leaves h
  · cases h
    rfl

/-- One endpoint of several changes, and with it the list that its sync queue
represents. -/
theorem repr_update {ι : Type*} [DecidableEq ι] {endpoint : ι → Endpoint M} {Q : ι → List (SyncEntry M)}
    (h : ∀ i, (endpoint i).syncQueue.Repr (Q i)) {i : ι} {l : List (SyncEntry M)} (hl : e'.syncQueue.Repr l)
    (j : ι) : (Function.update endpoint i e' j).syncQueue.Repr (Function.update Q i l j) := by
  by_cases hj : j = i
  · subst hj
    rw [Function.update_self, Function.update_self]
    exact hl
  · rw [Function.update_of_ne hj, Function.update_of_ne hj]
    exact h j

/-- A message that is not in the queue comes to its end. -/
theorem nodup_push {l : List (SyncEntry M)} (hl : (l.map SyncEntry.kernelMemMsg).Nodup) {x : SyncEntry M}
    (hx : ∀ y ∈ l, y.kernelMemMsg ≠ x.kernelMemMsg) : ((l ++ [x]).map SyncEntry.kernelMemMsg).Nodup := by
  rw [List.map_append, List.map_singleton, ← List.concat_eq_append]
  refine List.Nodup.concat (fun hmem => ?_) hl
  obtain ⟨y, hy, heq⟩ := List.mem_map.mp hmem
  exact hx y hy heq

end Leaves

/-- An endpoint with what was sent to it and what came out of it. -/
structure Channel (M : Type*) where
  endpoint : Endpoint M := {}
  sent : List (Taken M) := []
  delivered : List (Taken M) := []

inductive Op (M : Type*)
  | send (msg : M) (callee : ℕ) (isCall : Bool)
  | sendAsync (msg : M)
  | receive (signaled : Bool)
  | receiveAsync

/-- The message an operation sends. -/
def Op.msg : Op M → Option M
  | .send msg _ _ => some msg
  | .sendAsync msg => some msg
  | _ => none

namespace Channel

/-- The endpoint after a receive, and its message if it took one. -/
def record (c : Channel M) : Received M × Endpoint M → Channel M
  | (.taken t, e) => { c with endpoint := e, delivered := c.delivered ++ [t] }
  | (_, e) => { c with endpoint := e }

/-- One operation. A receive that finds no message and no signal waits: it has
not happened yet. -/
def step (c : Channel M) : Op M → Option (Channel M)
  | .send msg callee isCall =>
    some { c with
      endpoint := c.endpoint.send msg callee isCall
      sent := c.sent ++ [.sync (c.endpoint.syncEntry msg callee isCall)] }
  | .sendAsync msg =>
    some { c with
      endpoint := c.endpoint.sendAsync msg
      sent := c.sent ++ [.async (c.endpoint.asyncEntry msg)] }
  | .receive signaled =>
    if c.endpoint.hasMessage || signaled then (c.endpoint.receive signaled).map c.record else some c
  | .receiveAsync => c.endpoint.receiveAsync.map c.record

/-- One operation, where the arrays that the sync ring grows to have the bytes
`raw`. -/
def stepAssigned (raw : ℕ → ℕ → Bool) (c : Channel M) : Op M → Option (Channel M)
  | .send msg callee isCall =>
    (c.endpoint.sendAssigned raw msg callee isCall).map fun e =>
      { c with endpoint := e, sent := c.sent ++ [.sync (c.endpoint.syncEntry msg callee isCall)] }
  | o => c.step o

/-- A send does not move an entry over bytes that look like a reference. -/
def Keeps (raw : ℕ → ℕ → Bool) (c : Channel M) : Op M → Prop
  | .send _ _ _ => ¬ c.endpoint.syncQueue.PushesOver raw
  | _ => True

instance decidableKeeps (raw : ℕ → ℕ → Bool) (c : Channel M) : ∀ o, Decidable (c.Keeps raw o)
  | .send _ _ _ => inferInstanceAs (Decidable (¬ c.endpoint.syncQueue.PushesOver raw))
  | .sendAsync _ | .receive _ | .receiveAsync => inferInstanceAs (Decidable True)

theorem stepAssigned_of_keeps (raw : ℕ → ℕ → Bool) (c : Channel M) (o : Op M) (h : c.Keeps raw o) :
    c.stepAssigned raw o = c.step o := by
  cases o with
  | send msg callee isCall =>
    rw [stepAssigned, Endpoint.sendAssigned, Ring.pushAssigned_eq, if_neg h]
    rfl
  | sendAsync msg => rfl
  | receive signaled => rfl
  | receiveAsync => rfl

theorem stepAssigned_of_not_keeps (raw : ℕ → ℕ → Bool) (c : Channel M) (o : Op M) (h : ¬ c.Keeps raw o) :
    c.stepAssigned raw o = none := by
  cases o with
  | send msg callee isCall =>
    rw [stepAssigned, Endpoint.sendAssigned, Ring.pushAssigned_eq, if_pos (not_not.mp h)]
    rfl
  | sendAsync msg => exact absurd trivial h
  | receive signaled => exact absurd trivial h
  | receiveAsync => exact absurd trivial h

end Channel

/-! ### The order of the messages -/

def asAsync : Taken M → Option (AsyncEntry M)
  | .async e => some e
  | .sync _ => none

def asSync : Taken M → Option (SyncEntry M)
  | .sync e => some e
  | .async _ => none

/-- The state of an endpoint whose messages are those of `p`, oldest first. -/
structure Queued (e : Endpoint M) (p : List (Taken M)) : Prop where
  async : e.asyncQueue.Repr (p.filterMap asAsync)
  sync : e.syncQueue.Repr (p.filterMap asSync)
  ordered : p.Pairwise fun a b => a.tick < b.tick
  below : ∀ t ∈ p, t.tick < e.tick
  lastAsync : ∀ a l, p.filterMap asAsync = a :: l → e.lastAsyncMsgTick = a.addedTick
  lastSync : ∀ a l, p.filterMap asSync = a :: l → e.lastSyncMsgTick = a.addedTick

theorem Queued.asyncHeadTick {e : Endpoint M} {a : AsyncEntry M} {l : List (AsyncEntry M)}
    (h : e.asyncQueue.Repr (a :: l)) : e.asyncHeadTick = a.addedTick := by
  rw [Endpoint.asyncHeadTick, Ring.repr_front h]
  rfl

theorem Queued.syncHeadTick {e : Endpoint M} {a : SyncEntry M} {l : List (SyncEntry M)}
    (h : e.syncQueue.Repr (a :: l)) : e.syncHeadTick = a.addedTick := by
  rw [Endpoint.syncHeadTick, Ring.repr_front h]
  rfl

/-- `update_msg_ticks` makes both cached ticks right. -/
theorem updateMsgTicks_last {e : Endpoint M} {la : List (AsyncEntry M)} {ls : List (SyncEntry M)}
    (ha : e.asyncQueue.Repr la) (hs : e.syncQueue.Repr ls) :
    (∀ a l, la = a :: l → e.updateMsgTicks.lastAsyncMsgTick = a.addedTick) ∧
      ∀ a l, ls = a :: l → e.updateMsgTicks.lastSyncMsgTick = a.addedTick := by
  constructor
  · rintro a l rfl
    have hlen : e.asyncQueue.len ≠ 0 := by simp [ha.len]
    rw [Endpoint.updateMsgTicks, if_pos hlen]
    exact Queued.asyncHeadTick ha
  · rintro a l rfl
    have hlen : e.syncQueue.len ≠ 0 := by simp [hs.len]
    simp only [Endpoint.updateMsgTicks, if_pos hlen]
    exact Queued.syncHeadTick hs

theorem ordered_append {p : List (Taken M)} (h : p.Pairwise fun a b => a.tick < b.tick) {k : ℕ}
    (hb : ∀ t ∈ p, t.tick < k) {x : Taken M} (hx : x.tick = k) :
    ((p ++ [x]).Pairwise fun a b => a.tick < b.tick) ∧ ∀ t ∈ p ++ [x], t.tick < k + 1 := by
  constructor
  · refine List.pairwise_append.mpr ⟨h, List.pairwise_singleton _ _, fun a ha b hb' => ?_⟩
    rw [List.mem_singleton.mp hb', hx]
    exact hb a ha
  · intro t ht
    rcases List.mem_append.mp ht with ht | ht
    · have := hb t ht
      omega
    · rw [List.mem_singleton.mp ht, hx]
      omega

theorem queued_send {e : Endpoint M} {p : List (Taken M)} (h : Queued e p) (msg : M) (callee : ℕ)
    (isCall : Bool) :
    Queued (e.send msg callee isCall) (p ++ [.sync (e.syncEntry msg callee isCall)]) := by
  have hs := Ring.repr_push h.sync (e.syncEntry msg callee isCall)
  have hfa : (p ++ [Taken.sync (e.syncEntry msg callee isCall)]).filterMap asAsync =
      p.filterMap asAsync := by simp [asAsync]
  have hfs : (p ++ [Taken.sync (e.syncEntry msg callee isCall)]).filterMap asSync =
      p.filterMap asSync ++ [e.syncEntry msg callee isCall] := by simp [asSync]
  obtain ⟨hl1, hl2⟩ := updateMsgTicks_last
    (e := { e with syncQueue := e.syncQueue.push (e.syncEntry msg callee isCall) }) h.async hs
  obtain ⟨ho, hb⟩ := ordered_append h.ordered h.below
    (show (Taken.sync (e.syncEntry msg callee isCall)).tick = e.tick from rfl)
  refine ⟨hfa ▸ h.async, hfs ▸ hs, ho, hb, ?_, ?_⟩
  · rw [hfa]
    exact hl1
  · rw [hfs]
    exact hl2

theorem queued_sendAsync {e : Endpoint M} {p : List (Taken M)} (h : Queued e p) (msg : M) :
    Queued (e.sendAsync msg) (p ++ [.async (e.asyncEntry msg)]) := by
  have ha := Ring.repr_push h.async (e.asyncEntry msg)
  have hfa : (p ++ [Taken.async (e.asyncEntry msg)]).filterMap asAsync =
      p.filterMap asAsync ++ [e.asyncEntry msg] := by simp [asAsync]
  have hfs : (p ++ [Taken.async (e.asyncEntry msg)]).filterMap asSync = p.filterMap asSync := by
    simp [asSync]
  obtain ⟨hl1, hl2⟩ := updateMsgTicks_last
    (e := { e with asyncQueue := e.asyncQueue.push (e.asyncEntry msg) }) ha h.sync
  obtain ⟨ho, hb⟩ := ordered_append h.ordered h.below
    (show (Taken.async (e.asyncEntry msg)).tick = e.tick from rfl)
  refine ⟨hfa ▸ ha, hfs ▸ h.sync, ho, hb, ?_, ?_⟩
  · rw [hfa]
    exact hl1
  · rw [hfs]
    exact hl2

/-! ### Taking the oldest message -/

theorem hasMessage_iff {e : Endpoint M} {p : List (Taken M)} (h : Queued e p) :
    e.hasMessage = true ↔ p ≠ [] := by
  have h1 := h.async.len
  have h2 := h.sync.len
  cases p with
  | nil => simp [Endpoint.hasMessage, h1, h2]
  | cons t p =>
    cases t with
    | async a =>
      simp only [List.filterMap_cons, asAsync, List.length_cons] at h1
      simp [Endpoint.hasMessage, h1]
    | sync a =>
      simp only [List.filterMap_cons, asSync, List.length_cons] at h2
      simp [Endpoint.hasMessage, h2]

/-- The oldest message is an async one, and its queue gives it. -/
theorem queued_takeAsync {e : Endpoint M} {a : AsyncEntry M} {p : List (Taken M)}
    (h : Queued e (.async a :: p)) :
    ∃ e', e.takeAsync = some (.taken (.async a), e') ∧ Queued e' p ∧ e'.tick = e.tick := by
  have ha := h.async
  rw [List.filterMap_cons] at ha
  obtain ⟨q, hq, hr⟩ := Ring.repr_pop (v := a) ha
  obtain ⟨hord, hord'⟩ := List.pairwise_cons.mp h.ordered
  have hbelow : ∀ t ∈ p, t.tick < e.tick := fun t ht => h.below t (List.mem_cons_of_mem _ ht)
  have hlast : ∀ x l, p.filterMap asSync = x :: l → e.lastSyncMsgTick = x.addedTick :=
    fun x l hx => h.lastSync x l (by rw [List.filterMap_cons]; exact hx)
  rw [Endpoint.takeAsync, hq, Option.map_some]
  refine ⟨_, rfl, ?_⟩
  split
  · refine ⟨⟨hr, h.sync, hord', hbelow, fun x l hx => ?_, hlast⟩, rfl⟩
    exact Queued.asyncHeadTick (e := { e with asyncQueue := q }) (hx ▸ hr)
  · rename_i hlen
    refine ⟨⟨hr, h.sync, hord', hbelow, fun x l hx => ?_, hlast⟩, rfl⟩
    have := hr.len
    rw [hx, List.length_cons] at this
    simp only at hlen
    omega

theorem queued_takeSync {e : Endpoint M} {a : SyncEntry M} {p : List (Taken M)}
    (h : Queued e (.sync a :: p)) :
    ∃ e', e.takeSync = some (.taken (.sync a), e') ∧ Queued e' p ∧ e'.tick = e.tick := by
  have hs := h.sync
  rw [List.filterMap_cons] at hs
  obtain ⟨q, hq, hr⟩ := Ring.repr_pop (v := a) hs
  obtain ⟨hord, hord'⟩ := List.pairwise_cons.mp h.ordered
  have hbelow : ∀ t ∈ p, t.tick < e.tick := fun t ht => h.below t (List.mem_cons_of_mem _ ht)
  have hlast : ∀ x l, p.filterMap asAsync = x :: l → e.lastAsyncMsgTick = x.addedTick :=
    fun x l hx => h.lastAsync x l (by rw [List.filterMap_cons]; exact hx)
  rw [Endpoint.takeSync, hq, Option.map_some]
  refine ⟨_, rfl, ?_⟩
  split
  · refine ⟨⟨h.async, hr, hord', hbelow, hlast, fun x l hx => ?_⟩, rfl⟩
    exact Queued.syncHeadTick (e := { e with syncQueue := q }) (hx ▸ hr)
  · rename_i hlen
    refine ⟨⟨h.async, hr, hord', hbelow, hlast, fun x l hx => ?_⟩, rfl⟩
    have := hr.len
    rw [hx, List.length_cons] at this
    simp only at hlen
    omega

/-- The test of `ipc_receive` is right: it holds exactly when the oldest
message is in the async queue. -/
theorem receive_test {e : Endpoint M} {t : Taken M} {p : List (Taken M)} (h : Queued e (t :: p)) :
    ((e.lastAsyncMsgTick < e.lastSyncMsgTick ∧ e.asyncQueue.len ≠ 0) ∨ e.syncQueue.len = 0) ↔
      ∃ a, t = .async a := by
  obtain ⟨hord, -⟩ := List.pairwise_cons.mp h.ordered
  have h1 := h.async.len
  have h2 := h.sync.len
  cases t with
  | async a =>
    simp only [List.filterMap_cons, asAsync, asSync, List.length_cons] at h1 h2
    refine ⟨fun _ => ⟨a, rfl⟩, fun _ => ?_⟩
    cases hs : p.filterMap asSync with
    | nil => exact .inr (by rw [h2, hs]; rfl)
    | cons x l =>
      refine .inl ⟨?_, by omega⟩
      rw [h.lastAsync a _ rfl, h.lastSync x l (by rw [List.filterMap_cons]; exact hs)]
      obtain ⟨y, hy, hyx⟩ := List.mem_filterMap.mp (hs ▸ List.mem_cons_self : x ∈ p.filterMap asSync)
      cases y with
      | async _ => cases hyx
      | sync y => exact Option.some.inj hyx ▸ hord _ hy
  | sync a =>
    simp only [List.filterMap_cons, asAsync, asSync, List.length_cons] at h1 h2
    refine ⟨?_, fun ⟨x, hx⟩ => by cases hx⟩
    rintro (⟨hlt, hne⟩ | h0)
    · -- an async message that waits was sent after this one
      exfalso
      cases hs : p.filterMap asAsync with
      | nil => simp [hs] at h1; omega
      | cons x l =>
        rw [h.lastSync a _ rfl, h.lastAsync x l (by rw [List.filterMap_cons]; exact hs)] at hlt
        obtain ⟨y, hy, hyx⟩ :=
          List.mem_filterMap.mp (hs ▸ List.mem_cons_self : x ∈ p.filterMap asAsync)
        cases y with
        | sync _ => cases hyx
        | async y =>
          obtain rfl := Option.some.inj hyx
          have := hord _ hy
          simp only [Taken.tick] at this
          omega
    · omega

/-- **A receive takes the oldest message.** -/
theorem receive_takes {e : Endpoint M} {t : Taken M} {p : List (Taken M)} (h : Queued e (t :: p)) :
    ∃ e', e.receive false = some (.taken t, e') ∧ Queued e' p ∧ e'.tick = e.tick := by
  have htest := receive_test h
  unfold Endpoint.receive
  rw [if_neg (by simp)]
  cases t with
  | async a =>
    have hlen : e.asyncQueue.len ≠ 0 := by simp [h.async.len, asAsync]
    rw [if_pos (htest.mpr ⟨a, rfl⟩), if_neg hlen]
    exact queued_takeAsync h
  | sync a =>
    have hlen : e.syncQueue.len ≠ 0 := by simp [h.sync.len, asSync]
    rw [if_neg (htest.not.mpr (by rintro ⟨x, hx⟩; cases hx)), if_neg (by omega)]
    exact queued_takeSync h

/-! ### The non-blocking receive -/

/-- With a message queued, `ipc_receive_async` takes what `ipc_receive` takes
when the sync queue is not empty or its cached tick is the larger one. -/
theorem receiveAsync_eq {e : Endpoint M} (hm : e.hasMessage = true)
    (hc : e.syncQueue.len ≠ 0 ∨ e.lastAsyncMsgTick < e.lastSyncMsgTick) :
    e.receiveAsync = e.receive false := by
  have hm' : e.asyncQueue.len ≠ 0 ∨ e.syncQueue.len ≠ 0 := by
    simpa [Endpoint.hasMessage] using hm
  unfold Endpoint.receiveAsync Endpoint.receive
  rw [if_pos hm, if_neg Bool.false_ne_true]
  by_cases h1 : e.lastAsyncMsgTick < e.lastSyncMsgTick ∧ e.asyncQueue.len ≠ 0
  · rw [if_pos h1, if_pos (.inl h1), if_neg h1.2]
  · have hs : e.syncQueue.len ≠ 0 := by
      rcases hc with hc | hc
      · exact hc
      · intro h0
        exact h1 ⟨hc, hm'.resolve_right (fun h => h h0)⟩
    rw [if_neg h1, if_neg (not_or.mpr ⟨h1, hs⟩)]

/-- Otherwise it pops the empty sync queue. -/
theorem receiveAsync_none {e : Endpoint M} (hm : e.hasMessage = true)
    (hc : ¬ (e.syncQueue.len ≠ 0 ∨ e.lastAsyncMsgTick < e.lastSyncMsgTick)) :
    e.receiveAsync = none := by
  have hm' : e.asyncQueue.len ≠ 0 ∨ e.syncQueue.len ≠ 0 := by
    simpa [Endpoint.hasMessage] using hm
  obtain ⟨hs, hlt⟩ := not_or.mp hc
  rw [not_not] at hs
  unfold Endpoint.receiveAsync
  rw [if_pos hm, if_neg (by tauto), if_neg (by omega), Endpoint.takeSync, Ring.pop, if_pos hs]
  rfl

section Spec

variable {e e' : Endpoint M} {p : List (Taken M)} {r : Received M}

/-- What the receive `r` leaves of an endpoint with the messages `p`: it has
taken the oldest one, or nothing. -/
def Takes (p : List (Taken M)) (e : Endpoint M) (r : Received M) (e' : Endpoint M) : Prop :=
  (∃ t p', p = t :: p' ∧ r = .taken t ∧ Queued e' p') ∨ ((∀ t, r ≠ .taken t) ∧ e' = e)

theorem receive_spec (h : Queued e p) {signaled : Bool} (hr : e.receive signaled = some (r, e')) :
    Takes p e r e' := by
  cases signaled with
  | true =>
    cases hr
    exact .inr ⟨by simp, rfl⟩
  | false =>
    cases p with
    | nil =>
      have ha : e.asyncQueue.len = 0 := h.async.len
      have hs : e.syncQueue.len = 0 := h.sync.len
      unfold Endpoint.receive at hr
      rw [if_neg Bool.false_ne_true, if_pos (.inr hs), if_pos ha] at hr
      cases hr
      exact .inr ⟨by simp, rfl⟩
    | cons t p =>
      obtain ⟨e₁, he₁, hq, -⟩ := receive_takes h
      rw [he₁] at hr
      cases hr
      exact .inl ⟨t, p, rfl, rfl, hq⟩

theorem receiveAsync_spec (h : Queued e p) (hr : e.receiveAsync = some (r, e')) : Takes p e r e' := by
  by_cases hm : e.hasMessage = true
  · by_cases hc : e.syncQueue.len ≠ 0 ∨ e.lastAsyncMsgTick < e.lastSyncMsgTick
    · rw [receiveAsync_eq hm hc] at hr
      exact receive_spec h hr
    · rw [receiveAsync_none hm hc] at hr
      cases hr
  · rw [Endpoint.receiveAsync, if_neg hm] at hr
    cases hr
    exact .inr ⟨by simp, rfl⟩

end Spec

/-! ### Runs -/

/-- What was sent came out already or is queued, in the order it was sent. -/
structure Inv (c : Channel M) (p : List (Taken M)) : Prop where
  log : c.sent = c.delivered ++ p
  queued : Queued c.endpoint p
  ordered : c.sent.Pairwise fun a b => a.tick < b.tick
  below : ∀ t ∈ c.sent, t.tick < c.endpoint.tick

theorem inv_init : Inv ({} : Channel M) [] :=
  ⟨rfl, ⟨Ring.repr_empty, Ring.repr_empty, .nil, by simp, by simp, by simp⟩, .nil, by simp⟩

/-- A receive of a channel with a message delivers the oldest one. -/
theorem inv_receive {c : Channel M} {t : Taken M} {p : List (Taken M)} (h : Inv c (t :: p)) :
    ∃ e, c.endpoint.receive false = some (.taken t, e) ∧ Inv (c.record (.taken t, e)) p := by
  obtain ⟨e, he, hq, htick⟩ := receive_takes h.queued
  refine ⟨e, he, ?_, hq, h.ordered, ?_⟩
  · simpa [Channel.record] using h.log
  · simpa only [Channel.record, htick] using h.below

/-- **One step.** Every operation that returns keeps the log and the queues
together, and sends the message it says. -/
theorem inv_step {c c' : Channel M} {p : List (Taken M)} {o : Op M} (h : Inv c p)
    (hs : c.step o = some c') :
    (∃ p', Inv c' p') ∧ c'.sent.map Taken.msg = c.sent.map Taken.msg ++ o.msg.toList := by
  -- both receives, when they take a message
  have hrecv : ∀ r, c.endpoint.receive false = some r → c.endpoint.hasMessage = true →
      (∃ p', Inv (c.record r) p') ∧ (c.record r).sent = c.sent := fun r hr hm => by
    obtain ⟨t, p', rfl⟩ := List.exists_cons_of_ne_nil ((hasMessage_iff h.queued).mp hm)
    obtain ⟨e, he, hi⟩ := inv_receive h
    rw [he, Option.some.injEq] at hr
    subst hr
    exact ⟨⟨p', hi⟩, rfl⟩
  cases o with
  | send msg callee isCall =>
    rw [Channel.step, Option.some.injEq] at hs
    subst hs
    obtain ⟨ho, hb⟩ := ordered_append h.ordered h.below
      (show (Taken.sync (c.endpoint.syncEntry msg callee isCall)).tick = c.endpoint.tick from rfl)
    refine ⟨⟨_, ?_, queued_send h.queued msg callee isCall, ho, hb⟩, ?_⟩
    · simp [h.log]
    · simp [Op.msg, Taken.msg, Endpoint.syncEntry]
  | sendAsync msg =>
    rw [Channel.step, Option.some.injEq] at hs
    subst hs
    obtain ⟨ho, hb⟩ := ordered_append h.ordered h.below
      (show (Taken.async (c.endpoint.asyncEntry msg)).tick = c.endpoint.tick from rfl)
    refine ⟨⟨_, ?_, queued_sendAsync h.queued msg, ho, hb⟩, ?_⟩
    · simp [h.log]
    · simp [Op.msg, Taken.msg, Endpoint.asyncEntry]
  | receive signaled =>
    rw [Channel.step] at hs
    split at hs
    · rename_i hm
      obtain ⟨r, hr, rfl⟩ := Option.map_eq_some_iff.mp hs
      cases signaled with
      | true =>
        simp only [Endpoint.receive, ↓reduceIte, Option.some.injEq] at hr
        subst hr
        exact ⟨⟨p, h.log, h.queued, h.ordered, h.below⟩, by simp [Channel.record, Op.msg]⟩
      | false =>
        obtain ⟨hi, hsent⟩ := hrecv r hr (by simpa using hm)
        exact ⟨hi, by simp [hsent, Op.msg]⟩
    · rw [Option.some.injEq] at hs
      subst hs
      exact ⟨⟨p, h⟩, by simp [Op.msg]⟩
  | receiveAsync =>
    obtain ⟨r, hr, rfl⟩ := Option.map_eq_some_iff.mp hs
    by_cases hm : c.endpoint.hasMessage = true
    · by_cases hc : c.endpoint.syncQueue.len ≠ 0 ∨
        c.endpoint.lastAsyncMsgTick < c.endpoint.lastSyncMsgTick
      · rw [receiveAsync_eq hm hc] at hr
        obtain ⟨hi, hsent⟩ := hrecv r hr hm
        exact ⟨hi, by simp [hsent, Op.msg]⟩
      · rw [receiveAsync_none hm hc] at hr
        cases hr
    · rw [Endpoint.receiveAsync, if_neg hm, Option.some.injEq] at hr
      subst hr
      exact ⟨⟨p, h.log, h.queued, h.ordered, h.below⟩, by simp [Channel.record, Op.msg]⟩

/-- The blocking receive and the sends always return. -/
theorem step_some {c : Channel M} {p : List (Taken M)} (h : Inv c p) {o : Op M}
    (ho : o ≠ .receiveAsync) : ∃ c', c.step o = some c' := by
  cases o with
  | send msg callee isCall => exact ⟨_, rfl⟩
  | sendAsync msg => exact ⟨_, rfl⟩
  | receive signaled =>
    rw [Channel.step]
    split
    · rename_i hm
      cases signaled with
      | true => exact ⟨_, rfl⟩
      | false =>
        obtain ⟨t, p', rfl⟩ := List.exists_cons_of_ne_nil ((hasMessage_iff h.queued).mp (by simpa using hm))
        obtain ⟨e, he, -⟩ := inv_receive h
        exact ⟨_, by rw [he]; rfl⟩
    · exact ⟨_, rfl⟩
  | receiveAsync => exact absurd rfl ho

/-- **Every run.** -/
theorem inv_run : ∀ (os : List (Op M)) {c c' : Channel M} {p : List (Taken M)}, Inv c p →
    Lib.run Channel.step os c = some c' →
    (∃ p', Inv c' p') ∧ c'.sent.map Taken.msg = c.sent.map Taken.msg ++ os.filterMap Op.msg
  | [], c, c', p, h, hr => by
    rw [Lib.run_nil, Option.some.injEq] at hr
    subst hr
    exact ⟨⟨p, h⟩, by simp⟩
  | o :: os, c, c', p, h, hr => by
    obtain ⟨c1, h1, h2⟩ := Lib.run_cons_some hr
    obtain ⟨⟨p1, g1⟩, m1⟩ := inv_step h h1
    obtain ⟨g2, m2⟩ := inv_run os g1 h2
    refine ⟨g2, ?_⟩
    rw [m2, m1, List.append_assoc, List.filterMap_cons]
    cases o.msg <;> rfl

theorem run_some : ∀ (os : List (Op M)) {c : Channel M} {p : List (Taken M)}, Inv c p →
    (∀ o ∈ os, o ≠ .receiveAsync) → ∃ c', Lib.run Channel.step os c = some c'
  | [], c, _, _, _ => ⟨c, rfl⟩
  | o :: os, c, p, h, ho => by
    obtain ⟨ho1, ho2⟩ := List.forall_mem_cons.mp ho
    obtain ⟨c1, h1⟩ := step_some h ho1
    obtain ⟨⟨p1, g1⟩, -⟩ := inv_step h h1
    obtain ⟨c', hc'⟩ := run_some os g1 ho2
    exact ⟨c', by rw [Lib.run_cons, h1]; exact hc'⟩

/-- The messages are the entries of both queues. -/
theorem Queued.length {e : Endpoint M} {p : List (Taken M)} (h : Queued e p) :
    p.length = e.asyncQueue.len + e.syncQueue.len := by
  have hsum : ∀ l : List (Taken M),
      l.length = (l.filterMap asAsync).length + (l.filterMap asSync).length := fun l => by
    induction l with
    | nil => rfl
    | cons t l ih =>
      cases t <;> simp only [List.filterMap_cons, asAsync, asSync, List.length_cons] <;> omega
  rw [h.async.len, h.sync.len]
  exact hsum p

/-- What a channel owes its users: everything delivered was sent, in the order
it was sent and with growing ticks, what is missing is still queued, and the
next receive that finds a message delivers the next one. -/
structure InOrder (c : Channel M) : Prop where
  log : c.delivered <+: c.sent
  ticks : c.delivered.Pairwise fun a b => a.tick < b.tick
  rest : c.sent.length =
    c.delivered.length + c.endpoint.asyncQueue.len + c.endpoint.syncQueue.len
  next : c.endpoint.hasMessage = true → ∃ t e,
    c.endpoint.receive false = some (.taken t, e) ∧ c.delivered ++ [t] <+: c.sent

theorem Inv.inOrder {c : Channel M} {p : List (Taken M)} (h : Inv c p) : InOrder c := by
  refine ⟨⟨p, h.log.symm⟩, ?_, ?_, fun hm => ?_⟩
  · have := h.ordered
    rw [h.log] at this
    exact (List.pairwise_append.mp this).1
  · rw [h.log, List.length_append, h.queued.length, Nat.add_assoc]
  · obtain ⟨t, p', rfl⟩ := List.exists_cons_of_ne_nil ((hasMessage_iff h.queued).mp hm)
    obtain ⟨e, he, -⟩ := inv_receive h
    exact ⟨t, e, he, p', by rw [h.log]; simp⟩

/-- **When the non-blocking receive agrees.** In every reachable state with a
message queued, `ipc_receive_async` takes the message `ipc_receive` would, and
does not pop an empty ring, if and only if the sync queue is not empty or its
cached tick is larger than that of the async queue. -/
theorem receiveAsync_agrees_iff (os : List (Op M)) {c : Channel M}
    (hr : Lib.run Channel.step os {} = some c) (hm : c.endpoint.hasMessage = true) :
    ((∃ t e, c.endpoint.receiveAsync = some (.taken t, e) ∧
        c.endpoint.receive false = some (.taken t, e)) ↔
      c.endpoint.syncQueue.len ≠ 0 ∨ c.endpoint.lastAsyncMsgTick < c.endpoint.lastSyncMsgTick) := by
  obtain ⟨⟨p, hp⟩, -⟩ := inv_run os inv_init hr
  constructor
  · rintro ⟨t, e, he, -⟩
    by_contra hc
    rw [receiveAsync_none hm hc] at he
    cases he
  · intro hc
    obtain ⟨t, e, he, -⟩ := hp.inOrder.next hm
    exact ⟨t, e, receiveAsync_eq hm hc ▸ he, he⟩

/-- A sync and an async message wait: both receives take the sync one. -/
theorem receiveAsync_agrees_two : ∃ c : Channel ℕ,
    Lib.run Channel.step [.send 7 1 false, .sendAsync 8] {} = some c ∧
      ∃ t e, c.endpoint.receiveAsync = some (.taken t, e) ∧
        c.endpoint.receive false = some (.taken t, e) :=
  ⟨_, rfl, (receiveAsync_agrees_iff [.send 7 1 false, .sendAsync 8] rfl rfl).mpr (.inl (by decide))⟩

/-- The sync message is taken, the async one is left, and the tick of the empty
sync queue is stale: the non-blocking receive pops the empty queue. -/
theorem receiveAsync_pops_empty : ∃ c : Channel ℕ,
    Lib.run Channel.step [.send 7 1 false, .sendAsync 8, .receive false] {} = some c ∧
      c.endpoint.hasMessage = true ∧ c.endpoint.receiveAsync.isNone = true ∧
      ((c.endpoint.receive false).map fun r => match r.1 with
        | .taken t => some t.msg
        | _ => none) = some (some 8) :=
  ⟨_, rfl, by decide, by decide, by decide⟩

end Ipc
end WingOS
