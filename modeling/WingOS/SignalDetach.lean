/-
# Detaching from a signal

`signal_await`, `signal_trigger` and `SignalAttached::detach` on one endpoint
(`kernel/generic/signal.cpp`, `signal_asset.hpp`), one after the other: what they
do under the endpoint's lock. `signal_await` allocates an attachment of its own for
the entry that it adds.

`detach` looks for the entry of its attachment, and then removes the entry at `id`,
which is 0 when there was none to be found: that of another waiter, or
`unreachable$` when the list is empty. A trigger removes entries that are for one
signal, so that attachments are left without one. As long as every detach finds its
entry, whoever awaits the signal is woken by the next trigger
(`detach_own_iff`).

Key definitions: `Endpoint`, `visit`, `trigger`, `detach`, `Visited`, `DetachesOwn`,
`FindsEntry`, `Woken`.
Key theorems: `visit_eq`, `detachesOwn_iff`, `mem_awaiters_step`, `detach_own_iff`.
-/
import Mathlib.Data.List.Nodup
import WingOS.Lib.Run
import WingOS.Signal

namespace WingOS
namespace SignalDetach

open Function (update)
open Lib (run Meets)

/-- `kernel::Waiter`. -/
structure Waiter where
  task : Option ℕ
  kind : WaiterKind
  attachement : ℕ
  deriving DecidableEq

/-- `kernel::SignalEndpoint`, what it knows and sets of the tasks, and the next attachment. -/
structure Endpoint where
  counter : ℕ := 0
  awaiters : List Waiter := []
  signaled : ℕ → Bool := fun _ => false
  signaledBy : ℕ → Option ℕ := fun _ => none
  blocked : ℕ → Bool := fun _ => false
  next : ℕ := 0

inductive Op
  /-- `signal_await`, up to where the task begins to wait -/
  | await (task : ℕ) (async : Bool)
  | trigger
  | detach (this : ℕ)
  /-- the task is blocked, in `signal_await` or in another call -/
  | block (task : ℕ)
  /-- the task has seen that it was signaled -/
  | receive (task : ℕ)

namespace Endpoint

def await (e : Endpoint) (task : ℕ) (async : Bool) : Endpoint :=
  { e with
    awaiters := e.awaiters ++ [⟨some task, if async then .async else .sync, e.next⟩]
    next := e.next + 1 }

/-- The body of the loop of `signal_trigger`, for a waiter that has a task. -/
def wake (e : Endpoint) (t : ℕ) (elt : Waiter) : Endpoint :=
  { e with
    signaled := update e.signaled t true
    signaledBy := update e.signaledBy t (some elt.attachement)
    blocked := update e.blocked t false }

/-- The loop of `signal_trigger` from `index` on. -/
def visit : ℕ → ℕ → Endpoint → Endpoint
  | 0, _, e => e
  | fuel + 1, index, e =>
    match e.awaiters[index]? with
    | none => e
    | some elt =>
      match elt.task with
      | none => visit fuel (index + 1) e
      | some t =>
        let e := e.wake t elt
        match elt.kind with
        | .sync => visit fuel index { e with awaiters := e.awaiters.eraseIdx index }
        | .async => visit fuel (index + 1) e

/-- `signal_trigger`; the loop takes a turn for each waiter. -/
def trigger (e : Endpoint) : Endpoint :=
  let e := { e with counter := e.counter + 1 }
  if e.awaiters.length = 0 then e else visit e.awaiters.length 0 e

/-- `SignalAttached::detach`. `id` is 0 before the search. -/
def detach (e : Endpoint) (this : ℕ) : Option Endpoint :=
  let id := (e.awaiters.findIdx? (·.attachement = this)).getD 0
  if id < e.awaiters.length then some { e with awaiters := e.awaiters.eraseIdx id } else none

end Endpoint

/-- `none` is `unreachable$`. -/
def step (e : Endpoint) : Op → Option Endpoint
  | .await task async => some (e.await task async)
  | .trigger => some e.trigger
  | .detach this => e.detach this
  | .block task => some { e with blocked := update e.blocked task true }
  | .receive task => some { e with signaled := update e.signaled task false }

/-- A detach removes the entries of its own attachment, and does nothing else. -/
def DetachesOwn (e : Endpoint) (this : ℕ) : Prop :=
  e.detach this = some { e with awaiters := e.awaiters.filter (·.attachement ≠ this) }

/-- The entry of the attachment is still there. -/
def Attached (e : Endpoint) (this : ℕ) : Prop := ∃ elt ∈ e.awaiters, elt.attachement = this

/-- A detach finds its entry. -/
def FindsEntry (e : Endpoint) : Op → Prop
  | .detach this => Attached e this
  | _ => True

/-- The task is marked as signaled, and not blocked. -/
def Woken (e : Endpoint) (task : ℕ) : Prop := e.signaled task = true ∧ e.blocked task = false

variable {e e' : Endpoint} {this t : ℕ}

/-! ### The trigger -/

/-- What a trigger leaves in the list. -/
def Waiter.stays (elt : Waiter) : Bool := elt.task = none || elt.kind = .async

section Visit

variable {fuel index : ℕ} {elt : Waiter}

theorem visit_end (h : e.awaiters[index]? = none) : Endpoint.visit (fuel + 1) index e = e := by
  simp only [Endpoint.visit, h]

theorem visit_no_task (h : e.awaiters[index]? = some elt) (htask : elt.task = none) :
    Endpoint.visit (fuel + 1) index e = Endpoint.visit fuel (index + 1) e := by
  simp only [Endpoint.visit, h, htask]

theorem visit_async (h : e.awaiters[index]? = some elt) (htask : elt.task = some t)
    (hkind : elt.kind = .async) :
    Endpoint.visit (fuel + 1) index e = Endpoint.visit fuel (index + 1) (e.wake t elt) := by
  simp only [Endpoint.visit, h, htask, hkind]

theorem visit_sync (h : e.awaiters[index]? = some elt) (htask : elt.task = some t) (hkind : elt.kind = .sync) :
    Endpoint.visit (fuel + 1) index e =
      Endpoint.visit fuel index { e.wake t elt with awaiters := e.awaiters.eraseIdx index } := by
  simp only [Endpoint.visit, h, htask, hkind]
  rfl

/-- What the loop makes of `e` from `index` on: those for one signal are gone, and the tasks of all are
woken. -/
structure Visited (index : ℕ) (e e' : Endpoint) : Prop where
  list : e'.awaiters = e.awaiters.take index ++ (e.awaiters.drop index).filter Waiter.stays
  next : e'.next = e.next
  woken (t : ℕ) (h : (∃ x ∈ e.awaiters.drop index, x.task = some t) ∨ Woken e t) : Woken e' t

theorem Visited.nothing (h : e.awaiters.length ≤ index) : Visited index e e := by
  have hdrop : e.awaiters.drop index = [] := List.drop_of_length_le h
  constructor
  · rw [hdrop, List.filter_nil, List.append_nil, List.take_of_length_le h]
  · rfl
  · intro t ht
    rw [hdrop] at ht
    rcases ht with ⟨x, hx, -⟩ | ht
    · exact absurd hx List.not_mem_nil
    · exact ht

theorem drop_awaiters (h : e.awaiters[index]? = some elt) :
    e.awaiters.drop index = elt :: e.awaiters.drop (index + 1) := by
  obtain ⟨hindex, hget⟩ := List.getElem?_eq_some_iff.mp h
  rw [List.drop_eq_getElem_cons hindex, hget]

/-- The waiter at `index` stays in the list. -/
theorem list_stays (h : e.awaiters[index]? = some elt) (hstays : elt.stays = true) :
    e.awaiters.take index ++ (e.awaiters.drop index).filter Waiter.stays =
      e.awaiters.take (index + 1) ++ (e.awaiters.drop (index + 1)).filter Waiter.stays := by
  rw [drop_awaiters h, List.filter_cons_of_pos hstays, List.take_add_one, h, Option.toList_some,
    List.append_assoc, List.singleton_append]

/-- A waiter without a task is passed over. -/
theorem Visited.pass (h : e.awaiters[index]? = some elt) (htask : elt.task = none)
    (hv : Visited (index + 1) e e') : Visited index e e' where
  list := by
    have hstays : elt.stays = true := by simp [Waiter.stays, htask]
    rw [list_stays h hstays]
    exact hv.list
  next := hv.next
  woken t ht := by
    apply hv.woken t
    rw [drop_awaiters h] at ht
    rcases ht with ⟨x, hx, hxt⟩ | ht
    · rcases List.mem_cons.mp hx with rfl | hx
      · rw [htask] at hxt
        cases hxt
      · exact Or.inl ⟨x, hx, hxt⟩
    · exact Or.inr ht

/-- The task of the waiter at `index` is woken, and the other ones stay so. -/
theorem woken_wake {u : ℕ} (h : e.awaiters[index]? = some elt) (htask : elt.task = some u)
    (ht : (∃ x ∈ e.awaiters.drop index, x.task = some t) ∨ Woken e t) :
    (∃ x ∈ e.awaiters.drop (index + 1), x.task = some t) ∨ Woken (e.wake u elt) t := by
  have hwake : Woken (e.wake u elt) u := ⟨Function.update_self .., Function.update_self ..⟩
  rw [drop_awaiters h] at ht
  rcases ht with ⟨x, hx, hxt⟩ | ht
  · rcases List.mem_cons.mp hx with rfl | hx
    · rw [htask, Option.some.injEq] at hxt
      exact Or.inr (hxt ▸ hwake)
    · exact Or.inl ⟨x, hx, hxt⟩
  · right
    by_cases htu : t = u
    · exact htu ▸ hwake
    · exact ⟨(Function.update_of_ne htu ..).trans ht.1, (Function.update_of_ne htu ..).trans ht.2⟩

theorem Visited.async {u : ℕ} (h : e.awaiters[index]? = some elt) (htask : elt.task = some u)
    (hkind : elt.kind = .async) (hv : Visited (index + 1) (e.wake u elt) e') : Visited index e e' where
  list := by
    have hstays : elt.stays = true := by simp [Waiter.stays, hkind]
    rw [list_stays h hstays]
    exact hv.list
  next := hv.next
  woken t ht := hv.woken t (woken_wake h htask ht)

theorem Visited.sync {u : ℕ} (h : e.awaiters[index]? = some elt) (htask : elt.task = some u)
    (hkind : elt.kind = .sync)
    (hv : Visited index { e.wake u elt with awaiters := e.awaiters.eraseIdx index } e') : Visited index e e' := by
  have hindex : index < e.awaiters.length := (List.getElem?_eq_some_iff.mp h).1
  have hlen : (e.awaiters.take index).length = index := List.length_take_of_le (by omega)
  have htake : (e.awaiters.eraseIdx index).take index = e.awaiters.take index := by
    rw [List.eraseIdx_eq_take_drop_succ, List.take_left' hlen]
  have hdrop : (e.awaiters.eraseIdx index).drop index = e.awaiters.drop (index + 1) := by
    rw [List.eraseIdx_eq_take_drop_succ, List.drop_left' hlen]
  constructor
  · have hstays : ¬ elt.stays = true := by simp [Waiter.stays, htask, hkind]
    rw [drop_awaiters h, List.filter_cons_of_neg hstays, ← htake, ← hdrop]
    exact hv.list
  · exact hv.next
  · intro t ht
    apply hv.woken t
    show (∃ x ∈ (e.awaiters.eraseIdx index).drop index, x.task = some t) ∨ _
    rw [hdrop]
    exact woken_wake h htask ht

end Visit

/-- **A trigger** visits every waiter from `index` on. -/
theorem visit_eq {fuel : ℕ} : ∀ {index : ℕ} {e : Endpoint}, e.awaiters.length ≤ index + fuel →
    Visited index e (Endpoint.visit fuel index e) := by
  induction fuel with
  | zero => exact fun hfuel => Visited.nothing (by omega)
  | succ fuel ih =>
    intro index e hfuel
    cases helt : e.awaiters[index]? with
    | none =>
      rw [visit_end helt]
      exact Visited.nothing (List.getElem?_eq_none_iff.mp helt)
    | some elt =>
      cases htask : elt.task with
      | none =>
        rw [visit_no_task helt htask]
        exact (ih (by omega)).pass helt htask
      | some u =>
        cases hkind : elt.kind with
        | async =>
          have hlength : (e.wake u elt).awaiters.length ≤ index + 1 + fuel := by
            show e.awaiters.length ≤ index + 1 + fuel
            omega
          rw [visit_async helt htask hkind]
          exact (ih hlength).async helt htask hkind
        | sync =>
          have hindex : index < e.awaiters.length := (List.getElem?_eq_some_iff.mp helt).1
          have hlength : (e.awaiters.eraseIdx index).length ≤ index + fuel := by
            rw [List.length_eraseIdx_of_lt hindex]
            omega
          rw [visit_sync helt htask hkind]
          have hvisited := @ih index { e.wake u elt with awaiters := e.awaiters.eraseIdx index } hlength
          exact hvisited.sync helt htask hkind

theorem trigger_eq (e : Endpoint) :
    e.trigger.awaiters = e.awaiters.filter Waiter.stays ∧ e.trigger.next = e.next ∧
    ∀ elt ∈ e.awaiters, elt.task = some t → Woken e.trigger t := by
  unfold Endpoint.trigger
  by_cases hnone : e.awaiters.length = 0
  · simp only [if_pos hnone]
    rw [List.length_eq_zero_iff.mp hnone]
    exact ⟨List.filter_nil.symm, trivial, fun elt helt => by cases helt⟩
  · simp only [if_neg hnone]
    obtain ⟨hlist, hnext, hwoken⟩ := @visit_eq e.awaiters.length 0 { e with counter := e.counter + 1 } (by simp)
    refine ⟨?_, hnext, fun elt helt ht => hwoken t (Or.inl ⟨elt, by simpa using helt, ht⟩)⟩
    simpa using hlist

/-! ### The detach -/

/-- Each attachment is in one entry at most, and was allocated before. -/
structure Inv (e : Endpoint) : Prop where
  nodup : (e.awaiters.map Waiter.attachement).Nodup
  lt (elt : Waiter) (h : elt ∈ e.awaiters) : elt.attachement < e.next

theorem Inv.of_sublist {l : List Waiter} (h : Inv e) (hl : l.Sublist e.awaiters) (hawaiters : e'.awaiters = l)
    (hnext : e'.next = e.next) : Inv e' where
  nodup := by
    rw [hawaiters]
    exact h.nodup.sublist (hl.map Waiter.attachement)
  lt elt helt := by
    rw [hnext]
    exact h.lt elt (hl.subset (hawaiters ▸ helt))

/-- Where a detach finds its entry. -/
theorem detach_cases (h : e.detach this = some e') : ∃ i, e' = { e with awaiters := e.awaiters.eraseIdx i } ∧
    (Attached e this → ∃ elt, e.awaiters[i]? = some elt ∧ elt.attachement = this) := by
  unfold Endpoint.detach at h
  dsimp only at h
  split_ifs at h with hlt
  refine ⟨_, (Option.some.inj h).symm, fun ⟨elt, helt, hthis⟩ => ?_⟩
  cases hfind : e.awaiters.findIdx? (·.attachement = this) with
  | none => exact absurd (List.findIdx?_eq_none_iff.mp hfind elt helt) (by simp [hthis])
  | some i =>
    obtain ⟨hi, hkey, -⟩ := List.findIdx?_eq_some_iff_getElem.mp hfind
    exact ⟨e.awaiters[i], List.getElem?_eq_getElem hi, by simpa using hkey⟩

theorem inv_step {op : Op} (h : Inv e) (hs : step e op = some e') : Inv e' := by
  cases op with
  | await task async =>
    cases hs
    refine ⟨?_, fun elt helt => ?_⟩
    · show ((e.awaiters ++ [_]).map Waiter.attachement).Nodup
      rw [List.map_append, List.nodup_append]
      refine ⟨h.nodup, List.nodup_singleton _, fun a ha b hb => ?_⟩
      obtain ⟨elt, helt, rfl⟩ := List.mem_map.mp ha
      have hlt := h.lt elt helt
      obtain rfl : b = e.next := List.mem_singleton.mp hb
      omega
    · show elt.attachement < e.next + 1
      rcases List.mem_append.mp helt with helt | helt
      · exact Nat.lt_succ_of_lt (h.lt elt helt)
      · rw [List.mem_singleton.mp helt]
        exact Nat.lt_succ_self _
  | trigger =>
    cases hs
    obtain ⟨hlist, hnext, -⟩ := trigger_eq (t := 0) e
    exact h.of_sublist List.filter_sublist hlist hnext
  | detach this =>
    obtain ⟨i, rfl, -⟩ := detach_cases hs
    exact h.of_sublist (List.eraseIdx_sublist _ i) rfl rfl
  | block task =>
    cases hs
    exact h.of_sublist (List.Sublist.refl _) rfl rfl
  | receive task =>
    cases hs
    exact h.of_sublist (List.Sublist.refl _) rfl rfl

/-- The one entry of an attachment is taken out of the list. -/
theorem eraseP_eq_filter (this : ℕ) : ∀ {l : List Waiter}, (l.map Waiter.attachement).Nodup →
    l.eraseP (·.attachement = this) = l.filter (·.attachement ≠ this)
  | [], _ => rfl
  | elt :: l, h => by
    rw [List.map_cons, List.nodup_cons] at h
    by_cases helt : elt.attachement = this
    · rw [List.eraseP_cons_of_pos (by simpa using helt), List.filter_cons_of_neg (by simpa using helt), eq_comm,
        List.filter_eq_self]
      intro x hx
      have hne : x.attachement ≠ this := fun hc => h.1 (List.mem_map.mpr ⟨x, hx, hc.trans helt.symm⟩)
      simpa using hne
    · rw [List.eraseP_cons_of_neg (by simpa using helt), List.filter_cons_of_pos (by simpa using helt),
        eraseP_eq_filter this h.2]

/-- A detach removes its own entry exactly when the entry is still there. -/
theorem detachesOwn_iff (h : Inv e) (this : ℕ) : DetachesOwn e this ↔ Attached e this := by
  have herase := eraseP_eq_filter this h.nodup
  rw [List.eraseP_eq_eraseIdx] at herase
  unfold DetachesOwn Endpoint.detach
  cases hfind : e.awaiters.findIdx? (·.attachement = this) with
  | none =>
    -- the first entry is removed instead
    have hnone := List.findIdx?_eq_none_iff.mp hfind
    rw [hfind] at herase
    refine iff_of_false (fun hown => ?_) fun ⟨elt, helt, hthis⟩ => absurd (hnone elt helt) (by simp [hthis])
    rw [← herase, Option.getD_none] at hown
    dsimp only at hown
    split_ifs at hown with hpos
    have hlist : e.awaiters.eraseIdx 0 = e.awaiters := congrArg Endpoint.awaiters (Option.some.inj hown)
    have hlen := congrArg List.length hlist
    rw [List.length_eraseIdx_of_lt hpos] at hlen
    omega
  | some i =>
    obtain ⟨hi, hkey, -⟩ := List.findIdx?_eq_some_iff_getElem.mp hfind
    rw [hfind] at herase
    refine iff_of_true ?_ ⟨e.awaiters[i], List.getElem_mem hi, by simpa using hkey⟩
    rw [← herase, Option.getD_some]
    exact if_pos hi

/-! ### The waiters that are woken -/

/-- **An entry stays** that is not for one signal, as long as nobody else detaches it. -/
theorem mem_awaiters_step {op : Op} {elt : Waiter} (hs : step e op = some e') (helt : elt ∈ e.awaiters)
    (hstays : elt.stays = true) (hfinds : FindsEntry e op) (hop : op ≠ .detach elt.attachement) :
    elt ∈ e'.awaiters := by
  cases op with
  | await task async =>
    cases hs
    exact List.mem_append_left _ helt
  | trigger =>
    cases hs
    rw [(trigger_eq (t := 0) e).1]
    exact List.mem_filter.mpr ⟨helt, hstays⟩
  | detach this =>
    obtain ⟨i, rfl, hi⟩ := detach_cases hs
    obtain ⟨x, hx, hthis⟩ := hi hfinds
    obtain ⟨k, hk⟩ := List.mem_iff_getElem?.mp helt
    refine List.mem_eraseIdx_iff_getElem?.mpr ⟨k, fun hki => hop ?_, hk⟩
    obtain rfl : x = elt := Option.some.inj (hx.symm.trans (hki ▸ hk))
    rw [hthis]
  | block task =>
    cases hs
    exact helt
  | receive task =>
    cases hs
    exact helt

theorem mem_awaiters_run {elt : Waiter} (hstays : elt.stays = true) : ∀ (ops : List Op) {e e' : Endpoint},
    run step ops e = some e' → Meets step FindsEntry ops e → .detach elt.attachement ∉ ops → elt ∈ e.awaiters →
    elt ∈ e'.awaiters
  | [], e, e', hrun, _, _, helt => by
    cases hrun
    exact helt
  | op :: ops, e, e', hrun, hfinds, hops, helt => by
    obtain ⟨e₁, h₁, h₂⟩ := Lib.run_cons_some hrun
    rw [List.mem_cons, not_or] at hops
    have helt₁ := mem_awaiters_step h₁ helt hstays hfinds.1 fun hop => hops.1 hop.symm
    exact mem_awaiters_run hstays ops h₂ (hfinds.2 e₁ h₁) hops.2 helt₁

/-- **A detach removes its own waiter** if and only if the entry is still there, in every state that
a run leads to; and when the detaches after an asynchronous await find their entries, and none is its
own, the next trigger wakes the task. -/
theorem detach_own_iff (ops : List Op) (e : Endpoint) (hrun : run step ops {} = some e) :
    (∀ this, DetachesOwn e this ↔ Attached e this) ∧
    ∀ (t : ℕ) (later : List Op) (e' : Endpoint), run step later (e.await t true) = some e' →
      Meets step FindsEntry later (e.await t true) → .detach e.next ∉ later → Woken e'.trigger t := by
  have hempty : Inv {} := ⟨List.nodup_nil, fun elt helt => by cases helt⟩
  have hinv : Inv e := Lib.run_invariant (fun _ _ _ => inv_step) hempty hrun
  refine ⟨detachesOwn_iff hinv, fun t later e' hlater hfinds hown => ?_⟩
  have helt : (⟨some t, .async, e.next⟩ : Waiter) ∈ (e.await t true).awaiters :=
    List.mem_append_right _ List.mem_cons_self
  exact (trigger_eq e').2.2 _ (mem_awaiters_run rfl later hlater hfinds hown helt) rfl

/-- A waiter for one signal comes and goes; the other one is woken by the second trigger. -/
theorem detach_own_iff_two :
    Attached (Endpoint.await {} 1 false) 0 ∧
    ∀ e', run step [.await 2 true, .trigger, .block 1] (Endpoint.await {} 1 true) = some e' →
      Woken e'.trigger 1 := by
  have htwo := detach_own_iff [] {} rfl
  refine ⟨⟨⟨some 1, .sync, 0⟩, List.mem_cons_self, rfl⟩, fun e' he' => htwo.2 1 _ e' he' ?_ (by simp)⟩
  exact ⟨trivial, fun _ _ => ⟨trivial, fun _ _ => ⟨trivial, fun _ _ => trivial⟩⟩⟩

/-- A waiter for one signal is detached after the trigger. It takes the place of the other waiter,
which the next trigger does not wake; and without another waiter, the program stops. -/
theorem detach_removes_other :
    (∃ e, run step [.await 1 false, .await 2 true, .trigger, .detach 0, .receive 2, .block 2] {} = some e ∧
      ¬ Woken e.trigger 2) ∧
    run step [.await 1 false, .trigger, .detach 0] {} = none :=
  ⟨⟨_, rfl, by unfold Woken; decide⟩, rfl⟩

end SignalDetach
end WingOS
