/-
# Replies

Calls, receives and replies of any tasks on any endpoints, and what can be done
with the handles of return tasks meanwhile: an asset goes from table to table
by `asset_move`, `asset_copy` and as an argument of a message, and leaves its
table by `asset_release`. Each operation runs to its end before the next one.

A receive makes one entry of the return task of a call, and a reply removes the
entry it was called with. As long as it is the only one (`OnlyEntry`), there is
one reply to each call, which its caller still waits for (`replied_once`). A
copy outlives the reply, and can be used again (`replied_twice`).

Not in the model: the endpoint's lock that a send keeps when `get_phys` fails,
and the deletion of assets.

Key definitions: `ReplyState`, `ReplyState.step`, `Held`, `RepliedOnce`,
`OnlyEntry`, `Inv`.
Key theorems: `transfer_entered`, `sole_update`, `inv_step`, `replied_once`.
-/
import WingOS.IpcSend
import WingOS.Call
import WingOS.Lib.Run

namespace WingOS

open Function (update)
open IpcSend (IpcData IpcMessageArguments transfer updateInplaceMessage)

/-- The spaces, the endpoints (`messageSpace` are their `target_message_space`)
and the return tasks under their pointers; `waiting` is the message that a task
in `ipc_send` waits for. -/
structure ReplyState where
  spaces : Spaces
  messageSpace : ℕ → Option SpacePtr
  spaceOf : ℕ → SpacePtr
  nextPtr : AssetPtr
  endpoint : ℕ → Ipc.Endpoint ℕ := fun _ => {}
  returnTask : AssetPtr → Option ReturnTask := fun _ => none
  waiting : ℕ → Option ℕ := fun _ => none
  nextCall : ℕ := 0
  /-- how often the message of a call was written by `ipc_reply` -/
  replies : ℕ → ℕ := fun _ => 0
  /-- a reply was made to a call that its caller had left -/
  late : Bool := false

inductive ReplyOp
  /-- `mapped` if `get_phys` finds the message -/
  | send (t : ℕ) (source : SpacePtr) (e : ℕ) (isCall mapped : Bool) (args : IpcMessageArguments)
  | sendAsync (source : SpacePtr) (e : ℕ) (args : IpcMessageArguments)
  | receive (space : SpacePtr) (e : ℕ)
  | receiveAsync (space : SpacePtr) (e : ℕ)
  | reply (space : SpacePtr) (handle : ℕ) (args : IpcMessageArguments)
  | move (source target : SpacePtr) (handle : ℕ)
  | copy (source target : SpacePtr) (handle : ℕ)
  | release (space : SpacePtr) (handle : ℕ)

namespace ReplyState

/-- `create_ipc_return_task`. -/
def createReturnTask (s : ReplyState) (space : SpacePtr) (r : ReturnTask) : ReplyState :=
  { s with
    spaces := update s.spaces space
      ((s.spaces space).insertNew { asset := some s.nextPtr, handle := 0 } (Option.some_ne_none _))
    returnTask := update s.returnTask s.nextPtr (some r)
    nextPtr := s.nextPtr + 1 }

/-- What a receive does with the entry it has taken. -/
def deliver (s : ReplyState) (space : SpacePtr) : Ipc.Received ℕ → ReplyState
  | .taken (.sync entry) =>
    if entry.isCall then s.createReturnTask space { target := entry.callee, call := entry.kernelMemMsg }
    else { s with waiting := update s.waiting entry.callee none }
  | _ => s

/-- `asset_release`; `none` is the `unreachable$` of `_asset_remove`. -/
def assetRelease (s : ReplyState) (space : SpacePtr) (handle : ℕ) : Option ReplyState :=
  if (s.spaces space).assets handle = none then none
  else some { s with spaces := update s.spaces space ((s.spaces space).moveOut handle) }

/-- `ipc_reply`, with the return task `r` under `handle`. -/
def ipcReply (s : ReplyState) (space : SpacePtr) (handle : ℕ) (r : ReturnTask) (args : IpcMessageArguments) :
    Option ReplyState :=
  match updateInplaceMessage (some (s.spaceOf r.target)) space args.data s.spaces with
  | none => none
  | some (.error _, _, w) => some { s with spaces := w }
  | some (.ok (), _, w) =>
    assetRelease { s with
      spaces := w
      replies := update s.replies r.call (s.replies r.call + 1)
      late := s.late || s.waiting r.target ≠ some r.call
      waiting := update s.waiting r.target none } space handle

def step (s : ReplyState) : ReplyOp → Option ReplyState
  | .send t source e isCall mapped args =>
    if s.waiting t ≠ none then none
    else
      match updateInplaceMessage (s.messageSpace e) source args.data s.spaces with
      | none => none
      | some (.error _, _, w) => some { s with spaces := w }
      | some (.ok (), _, w) =>
        if mapped then
          some { s with
            spaces := w
            endpoint := update s.endpoint e ((s.endpoint e).send s.nextCall t isCall)
            waiting := update s.waiting t (some s.nextCall)
            nextCall := s.nextCall + 1 }
        else some { s with spaces := w }
  | .sendAsync source e args =>
    match updateInplaceMessage (s.messageSpace e) source args.data s.spaces with
    | none => none
    | some (.error _, _, w) => some { s with spaces := w }
    | some (.ok (), _, w) =>
      some { s with spaces := w, endpoint := update s.endpoint e ((s.endpoint e).sendAsync 0) }
  | .receive space e =>
    ((s.endpoint e).receive false).map fun r =>
      ReplyState.deliver { s with endpoint := update s.endpoint e r.2 } space r.1
  | .receiveAsync space e =>
    (s.endpoint e).receiveAsync.map fun r =>
      ReplyState.deliver { s with endpoint := update s.endpoint e r.2 } space r.1
  | .reply space handle args =>
    match ((s.spaces space).assetAt handle).bind s.returnTask with
    | none => some s
    | some r => s.ipcReply space handle r args
  | .move source target handle =>
    match (s.spaces source).byHandle handle with
    | .error _ => some s
    | .ok r =>
      match assetMove (some source) (some target) r s.spaces with
      | .error _ => some s
      | .ok (_, w) => some { s with spaces := w }
  | .copy source target handle =>
    match (s.spaces source).byHandle handle with
    | .error _ => some s
    | .ok r =>
      (assetCopy (some target) r s.spaces).map fun
        | .error _ => s
        | .ok (_, w) => { s with spaces := w }
  | .release space handle => if (s.spaces space).assets handle = none then some s else s.assetRelease space handle

/-- Each call is replied to at most once, and before its caller leaves it. -/
structure RepliedOnce (s : ReplyState) : Prop where
  once : ∀ c, s.replies c ≤ 1
  late : s.late = false

/-- A reply is made with the only entry of its return task, and its message has
no copy of it. -/
def OnlyEntry (s : ReplyState) : ReplyOp → Prop
  | .reply space handle args => ∀ a r, (s.spaces space).assetAt handle = some a → s.returnTask a = some r →
      (∀ p k, (s.spaces p).assetAt k = some a → p = space ∧ k = handle) ∧
        ∀ d ∈ args.data, d.isAsset = true → d.copyAsset = true → d.value ≠ handle
  | _ => True

end ReplyState

/-! ### Entries -/

/-- Some table has an entry of the asset. -/
def Held (w : Spaces) (a : AssetPtr) : Prop := ∃ p k, (w p).assetAt k = some a

/-- An asset of the source has got an entry in a table, and may have lost one. -/
structure Entered (w w' : Spaces) (source : SpacePtr) (h : ℕ) (moved : Bool) : Prop where
  uid : ∀ p, (w p).allocUid ≤ (w' p).allocUid
  entries : ∃ dst a, (w source).assetAt h = some a ∧ ∀ p k, (w' p).assetAt k =
    if moved = true ∧ p = source ∧ k = h then none
    else if p = dst ∧ k = (w dst).allocUid + 1 then some a else (w p).assetAt k

section Tables

variable {source : SpacePtr} {target : Option SpacePtr} {w w' : Spaces} {h : ℕ} {a : AssetPtr} {r r' : AssetRef}

theorem entered_move (hr : (w source).assets h = some r)
    (hmove : assetMove (some source) target r w = .ok (r', w')) : Entered w w' source h true := by
  cases target with
  | none => cases hmove
  | some dst =>
    obtain ⟨w₁, hok, -, hat⟩ := assetMove_ok dst hr
    obtain ⟨a, ha⟩ := Option.ne_none_iff_exists'.mp ((w source).asset_ne hr)
    have heq : w₁ = w' := by
      rw [hok, Except.ok.injEq, Prod.mk.injEq] at hmove
      exact hmove.2
    subst heq
    refine ⟨allocUid_assetMove hmove, dst, a, AssetTable.assetAt_eq_some.mpr ⟨r, hr, ha⟩, fun p k => ?_⟩
    rw [hat, ha]
    simp only [true_and]

theorem entered_copy (hr : (w source).assets h = some r)
    (hcopy : assetCopy target r w = some (.ok (r', w'))) : Entered w w' source h false := by
  unfold assetCopy at hcopy
  split at hcopy
  · cases hcopy
  · rename_i dst
    split at hcopy
    · cases hcopy
    · rename_i hne
      split at hcopy
      · cases hcopy
      · cases hcopy
        obtain ⟨a, ha⟩ := Option.ne_none_iff_exists'.mp hne
        refine ⟨fun p => ?_, dst, a, AssetTable.assetAt_eq_some.mpr ⟨r, hr, ha⟩, fun p k => ?_⟩
        · rw [Function.update_apply]
          split
          · rename_i hp
            rw [AssetTable.allocUid_insertNew, hp]
            exact Nat.le_succ _
          · exact Nat.le_refl _
        · rw [if_neg (fun hmoved => Bool.false_ne_true hmoved.1), Function.update_apply]
          by_cases hp : p = dst
          · rw [if_pos hp, AssetTable.assetAt_insertNew, ha, hp]
            simp only [true_and]
          · rw [if_neg hp, if_neg fun hboth => hp hboth.1]

/-- An argument of a message is no asset, or it enters another table. -/
theorem transfer_entered {d d' : IpcData} (ht : transfer target source d w = some (.ok (d', w'))) :
    w' = w ∨ d.isAsset = true ∧ Entered w w' source d.value (!d.copyAsset) := by
  rcases IpcSend.transfer_cases ht with ⟨-, -, hsame⟩ | ⟨hasset, r, r', hr, -, hmoved | hcopied⟩
  · exact .inl hsame
  · refine .inr ⟨hasset, ?_⟩
    rw [hmoved.1]
    exact entered_move hr hmoved.2
  · refine .inr ⟨hasset, ?_⟩
    rw [hcopied.1]
    exact entered_copy hr hcopied.2

theorem Entered.held {moved : Bool} (hw : Entered w w' source h moved) (ha : Held w' a) : Held w a := by
  obtain ⟨dst, b, hb, hat⟩ := hw.entries
  obtain ⟨p, k, hk⟩ := ha
  rw [hat] at hk
  split at hk
  · cases hk
  · split at hk
    · cases hk
      exact ⟨source, h, hb⟩
    · exact ⟨p, k, hk⟩

/-- No message makes an entry of an asset that has none. -/
theorem held_update {ds ds' : List IpcData} {res : Except String Unit}
    (hu : updateInplaceMessage target source ds w = some (res, ds', w')) : Held w' a → Held w a := by
  refine IpcSend.updateInplaceMessage_keeps (P := fun w₁ => Held w₁ a → Held w a) hu
    (fun d _ w₁ d' w₂ ht hheld ha => hheld ?_) id
  rcases transfer_entered ht with rfl | ⟨-, hw⟩
  · exact ha
  · exact hw.held ha

/-- The entry `h` of the source is the only one of the asset, or it is gone. -/
def Sole (w : Spaces) (source : SpacePtr) (h : ℕ) (a : AssetPtr) : Prop :=
  h ≤ (w source).allocUid ∧
    ((∀ p k, (w p).assetAt k = some a → p = source ∧ k = h) ∨ (w source).assetAt h = none)

theorem Entered.sole {d : ℕ} {moved : Bool} (hw : Entered w w' source d moved) (hd : moved = false → d ≠ h)
    (hsole : Sole w source h a) : Sole w' source h a := by
  obtain ⟨hle, honly⟩ := hsole
  obtain ⟨dst, b, hb, hat⟩ := hw.entries
  refine ⟨Nat.le_trans hle (hw.uid source), ?_⟩
  rcases honly with honly | hgone
  · by_cases heq : d = h
    · -- the entry itself is moved
      have hmoved : moved = true := by
        by_contra hno
        exact hd (Bool.eq_false_iff.mpr hno) heq
      refine .inr ?_
      rw [hat, if_pos ⟨hmoved, rfl, heq.symm⟩]
    · have hother : b ≠ a := fun hba => heq (honly source d (hba ▸ hb)).2
      refine .inl fun p k hk => ?_
      rw [hat] at hk
      split at hk
      · cases hk
      · split at hk
        · cases hk
          exact absurd rfl hother
        · exact honly p k hk
  · refine .inr ?_
    rw [hat]
    split
    · rfl
    · split
      · rename_i hnew
        rw [← hnew.1] at hnew
        omega
      · exact hgone

/-- A message without a copy of it does not make a second entry. -/
theorem sole_update {ds ds' : List IpcData} {res : Except String Unit}
    (hu : updateInplaceMessage target source ds w = some (res, ds', w'))
    (hcopies : ∀ d ∈ ds, d.isAsset = true → d.copyAsset = true → d.value ≠ h) :
    Sole w source h a → Sole w' source h a := by
  refine IpcSend.updateInplaceMessage_keeps (P := fun w => Sole w source h a) hu fun d hd w₁ d' w₂ ht hsole => ?_
  rcases transfer_entered ht with rfl | ⟨hasset, hw⟩
  · exact hsole
  · refine hw.sole (fun hcopy => hcopies d hd hasset ?_) hsole
    rwa [Bool.not_eq_false'] at hcopy

theorem held_moveOut {p : SpacePtr} {k : ℕ} (ha : Held (update w p ((w p).moveOut k)) a) :
    ∃ q j, (w q).assetAt j = some a ∧ ¬ (q = p ∧ j = k) := by
  obtain ⟨q, j, hj⟩ := ha
  rw [Function.update_apply] at hj
  by_cases hq : q = p
  · rw [if_pos hq, AssetTable.assetAt_moveOut] at hj
    by_cases hjk : j = k
    · rw [if_pos hjk] at hj
      cases hj
    · rw [if_neg hjk] at hj
      exact ⟨p, j, hj, fun hboth => hjk hboth.2⟩
  · rw [if_neg hq] at hj
    exact ⟨q, j, hj, fun hboth => hq hboth.1⟩

theorem held_insertNew {p : SpacePtr} {r : AssetRef} {hr : r.asset ≠ none}
    (ha : Held (update w p ((w p).insertNew r hr)) a) : r.asset = some a ∨ Held w a := by
  obtain ⟨q, j, hj⟩ := ha
  rw [Function.update_apply] at hj
  by_cases hq : q = p
  · rw [if_pos hq, AssetTable.assetAt_insertNew] at hj
    by_cases hnew : j = (w p).allocUid + 1
    · rw [if_pos hnew] at hj
      exact .inl hj
    · rw [if_neg hnew] at hj
      exact .inr ⟨p, j, hj⟩
  · rw [if_neg hq] at hj
    exact .inr ⟨q, j, hj⟩

end Tables

namespace ReplyState

open Ipc (SyncEntry)

/-- A message in a sync queue: its sender waits, and nobody has it yet. -/
structure Queued (returnTask : AssetPtr → Option ReturnTask) (waiting : ℕ → Option ℕ) (nextCall : ℕ)
    (replies : ℕ → ℕ) (x : SyncEntry ℕ) : Prop where
  old : x.kernelMemMsg < nextCall
  waits : waiting x.callee = some x.kernelMemMsg
  unanswered : replies x.kernelMemMsg = 0
  no_task : ∀ a r, returnTask a = some r → r.call ≠ x.kernelMemMsg

/-- `Q` are the sync queues. -/
structure Inv (s : ReplyState) (Q : ℕ → List (SyncEntry ℕ)) : Prop where
  repr : ∀ e, (s.endpoint e).syncQueue.Repr (Q e)
  nodup : ∀ e, ((Q e).map SyncEntry.kernelMemMsg).Nodup
  apart : ∀ e e' x y, x ∈ Q e → y ∈ Q e' → x.kernelMemMsg = y.kernelMemMsg → e = e'
  queued : ∀ e, ∀ x ∈ Q e, Queued s.returnTask s.waiting s.nextCall s.replies x
  task : ∀ a r, s.returnTask a = some r → a < s.nextPtr ∧ r.call < s.nextCall
  distinct : ∀ a a' r r', s.returnTask a = some r → s.returnTask a' = some r' → r.call = r'.call → a = a'
  held : ∀ a, Held s.spaces a → a < s.nextPtr
  /-- Who has the return task can reply: the caller waits for it. -/
  owed : ∀ a r, s.returnTask a = some r → Held s.spaces a →
    s.replies r.call = 0 ∧ s.waiting r.target = some r.call
  fresh : ∀ c, s.nextCall ≤ c → s.replies c = 0
  replied : RepliedOnce s

variable {s s' : ReplyState} {Q : ℕ → List (SyncEntry ℕ)}

theorem Inv.setSpaces (h : Inv s Q) {w : Spaces} (hw : ∀ a, Held w a → Held s.spaces a) :
    Inv { s with spaces := w } Q :=
  ⟨h.repr, h.nodup, h.apart, h.queued, h.task, h.distinct, fun a ha => h.held a (hw a ha),
    fun a r hr ha => h.owed a r hr (hw a ha), h.fresh, ⟨h.replied.once, h.replied.late⟩⟩

/-- An endpoint changes, but not its sync queue. -/
theorem Inv.setEndpoint (h : Inv s Q) {e : ℕ} {e' : Ipc.Endpoint ℕ}
    (hsync : e'.syncQueue = (s.endpoint e).syncQueue) : Inv { s with endpoint := update s.endpoint e e' } Q := by
  have hrepr := Ipc.repr_update (i := e) h.repr (hsync ▸ h.repr e)
  rw [Function.update_eq_self] at hrepr
  exact ⟨hrepr, h.nodup, h.apart, h.queued, h.task, h.distinct, h.held, h.owed, h.fresh,
    ⟨h.replied.once, h.replied.late⟩⟩

/-- A task sends a message and waits. -/
theorem Inv.send (h : Inv s Q) {t e : ℕ} {isCall : Bool} (ht : s.waiting t = none) :
    Inv { s with
      endpoint := update s.endpoint e ((s.endpoint e).send s.nextCall t isCall)
      waiting := update s.waiting t (some s.nextCall)
      nextCall := s.nextCall + 1 } (update Q e (Q e ++ [(s.endpoint e).syncEntry s.nextCall t isCall])) := by
  have hother : ∀ {t' c}, s.waiting t' = some c → update s.waiting t (some s.nextCall) t' = some c := by
    intro t' c hc
    rw [Function.update_of_ne, hc]
    rintro rfl
    rw [ht] at hc
    cases hc
  have hmem : ∀ {e' x}, x ∈ update Q e (Q e ++ [(s.endpoint e).syncEntry s.nextCall t isCall]) e' →
      x ∈ Q e' ∨ e' = e ∧ x = (s.endpoint e).syncEntry s.nextCall t isCall := by
    intro e' x hx
    by_cases he : e' = e
    · subst he
      rw [Function.update_self, List.mem_append, List.mem_singleton] at hx
      exact hx.imp_right fun hx => ⟨rfl, hx⟩
    · rw [Function.update_of_ne he] at hx
      exact .inl hx
  have hold : ∀ {e' x}, x ∈ Q e' → x.kernelMemMsg ≠ s.nextCall := fun hx heq =>
    Nat.lt_irrefl _ (heq ▸ (h.queued _ _ hx).old)
  refine ⟨Ipc.repr_update h.repr (Ring.repr_push (h.repr e) _), fun e' => ?_,
    fun e₁ e₂ x y hx hy heq => ?_, fun e' x hx => ?_, fun a r hr => ?_, h.distinct, h.held, fun a r hr ha => ?_, fun c hc => h.fresh c (Nat.le_of_succ_le hc),
    ⟨h.replied.once, h.replied.late⟩⟩
  · by_cases he : e' = e
    · subst he
      rw [Function.update_self]
      exact Ipc.nodup_push (h.nodup e') fun y hy => hold hy
    · rw [Function.update_of_ne he]
      exact h.nodup e'
  · rcases hmem hx with hxold | ⟨rfl, rfl⟩
    · rcases hmem hy with hyold | ⟨rfl, rfl⟩
      · exact h.apart e₁ e₂ x y hxold hyold heq
      · exact absurd heq (hold hxold)
    · rcases hmem hy with hyold | ⟨rfl, rfl⟩
      · exact absurd heq.symm (hold hyold)
      · rfl
  · rcases hmem hx with hx | ⟨rfl, rfl⟩
    · obtain ⟨hlt, hwaits, hzero, hno⟩ := h.queued e' x hx
      exact ⟨Nat.lt_succ_of_lt hlt, hother hwaits, hzero, hno⟩
    · refine ⟨Nat.lt_succ_self _, Function.update_self .., h.fresh _ (Nat.le_refl _), fun a r hr heq => ?_⟩
      exact Nat.lt_irrefl _ (heq ▸ (h.task a r hr).2)
  · exact ⟨(h.task a r hr).1, Nat.lt_succ_of_lt (h.task a r hr).2⟩
  · exact ⟨(h.owed a r hr ha).1, hother (h.owed a r hr ha).2⟩

/-- The first message leaves its queue. -/
theorem Inv.pop (h : Inv s Q) {e : ℕ} {x : SyncEntry ℕ} {e' : Ipc.Endpoint ℕ}
    (hpop : (s.endpoint e).syncQueue.pop = some (x, e'.syncQueue)) :
    Queued s.returnTask s.waiting s.nextCall s.replies x ∧ ∃ l, Q e = x :: l ∧
      (∀ e₁, ∀ y ∈ update Q e l e₁, y.kernelMemMsg ≠ x.kernelMemMsg) ∧
      Inv { s with endpoint := update s.endpoint e e' } (update Q e l) := by
  obtain ⟨l, hQ, hrepr⟩ := Ring.repr_of_pop (h.repr e) hpop
  have hx : x ∈ Q e := hQ ▸ List.mem_cons_self
  have hmem : ∀ {e₁ y}, y ∈ update Q e l e₁ → y ∈ Q e₁ := by
    intro e₁ y hy
    by_cases he : e₁ = e
    · subst he
      rw [Function.update_self] at hy
      exact hQ ▸ List.mem_cons_of_mem x hy
    · rwa [Function.update_of_ne he] at hy
  have hnodup := h.nodup e
  rw [hQ, List.map_cons, List.nodup_cons] at hnodup
  refine ⟨h.queued e x hx, l, hQ, fun e₁ y hy heq => ?_, Ipc.repr_update h.repr hrepr, fun e₁ => ?_,
    fun e₁ e₂ y z hy hz => h.apart e₁ e₂ y z (hmem hy) (hmem hz), fun e₁ y hy => h.queued e₁ y (hmem hy),
    h.task, h.distinct, h.held, h.owed, h.fresh, ⟨h.replied.once, h.replied.late⟩⟩
  · have he : e₁ = e := h.apart e₁ e y x (hmem hy) hx heq
    subst he
    rw [Function.update_self] at hy
    exact hnodup.1 (heq ▸ List.mem_map_of_mem hy)
  · by_cases he : e₁ = e
    · subst he
      rw [Function.update_self]
      exact hnodup.2
    · rw [Function.update_of_ne he]
      exact h.nodup e₁

/-- A task does not wait any more for a message that has left the queues, and
whose return task, if there is one, has no entry. -/
theorem Inv.resume (h : Inv s Q) {t c : ℕ} (ht : s.waiting t = some c)
    (hqueue : ∀ e, ∀ x ∈ Q e, x.kernelMemMsg ≠ c)
    (htask : ∀ a r, s.returnTask a = some r → Held s.spaces a → r.call ≠ c) :
    Inv { s with waiting := update s.waiting t none } Q := by
  have hother : ∀ {t' c'}, s.waiting t' = some c' → c' ≠ c → update s.waiting t none t' = some c' := by
    intro t' c' hc' hne
    rw [Function.update_of_ne, hc']
    rintro rfl
    exact hne (Option.some.inj (hc'.symm.trans ht))
  refine ⟨h.repr, h.nodup, h.apart, fun e x hx => ?_, h.task, h.distinct, h.held, fun a r hr ha => ?_,
    h.fresh, ⟨h.replied.once, h.replied.late⟩⟩
  · obtain ⟨hlt, hwaits, hzero, hno⟩ := h.queued e x hx
    exact ⟨hlt, hother hwaits (hqueue e x hx), hzero, hno⟩
  · obtain ⟨hzero, hwaits⟩ := h.owed a r hr ha
    exact ⟨hzero, hother hwaits (htask a r hr ha)⟩

/-- A receive makes the return task of a call. -/
theorem Inv.createReturnTask (h : Inv s Q) {space : SpacePtr} {x : SyncEntry ℕ}
    (hx : Queued s.returnTask s.waiting s.nextCall s.replies x)
    (hqueue : ∀ e, ∀ y ∈ Q e, y.kernelMemMsg ≠ x.kernelMemMsg) :
    Inv (s.createReturnTask space { target := x.callee, call := x.kernelMemMsg }) Q := by
  have hnone : ∀ {a r}, s.returnTask a = some r → a ≠ s.nextPtr := fun hr heq =>
    Nat.lt_irrefl _ (heq ▸ (h.task _ _ hr).1)
  have htask : ∀ {a r}, update s.returnTask s.nextPtr (some { target := x.callee, call := x.kernelMemMsg }) a =
      some r → a = s.nextPtr ∧ r = { target := x.callee, call := x.kernelMemMsg } ∨ s.returnTask a = some r := by
    intro a r hr
    by_cases ha : a = s.nextPtr
    · rw [ha, Function.update_self, Option.some_inj] at hr
      exact .inl ⟨ha, hr.symm⟩
    · rw [Function.update_of_ne ha] at hr
      exact .inr hr
  have hheld : ∀ {a}, Held (update s.spaces space ((s.spaces space).insertNew
      { asset := some s.nextPtr, handle := 0 } (Option.some_ne_none _))) a → a = s.nextPtr ∨ Held s.spaces a :=
    fun ha => (held_insertNew ha).imp_left fun heq => (Option.some.inj heq).symm
  refine ⟨h.repr, h.nodup, h.apart, fun e y hy => ?_, fun a r hr => ?_, fun a a' r r' hr hr' heq => ?_,
    fun a ha => ?_, fun a r hr ha => ?_, h.fresh, ⟨h.replied.once, h.replied.late⟩⟩
  · obtain ⟨hlt, hwaits, hzero, hno⟩ := h.queued e y hy
    refine ⟨hlt, hwaits, hzero, fun a r hr => ?_⟩
    rcases htask hr with ⟨-, rfl⟩ | hr
    · exact (hqueue e y hy).symm
    · exact hno a r hr
  · rcases htask hr with ⟨rfl, rfl⟩ | hr
    · exact ⟨Nat.lt_succ_self _, hx.old⟩
    · exact ⟨Nat.lt_succ_of_lt (h.task a r hr).1, (h.task a r hr).2⟩
  · rcases htask hr with ⟨rfl, rfl⟩ | hr
    · rcases htask hr' with ⟨rfl, rfl⟩ | hr'
      · rfl
      · exact absurd heq.symm (hx.no_task a' r' hr')
    · rcases htask hr' with ⟨rfl, rfl⟩ | hr'
      · exact absurd heq (hx.no_task a r hr)
      · exact h.distinct a a' r r' hr hr' heq
  · rcases hheld ha with rfl | ha
    · exact Nat.lt_succ_self _
    · exact Nat.lt_succ_of_lt (h.held a ha)
  · rcases htask hr with ⟨rfl, rfl⟩ | hr
    · exact ⟨hx.unanswered, hx.waits⟩
    · exact h.owed a r hr ((hheld ha).resolve_left (hnone hr))

/-- A receive. -/
theorem Inv.deliver (h : Inv s Q) {e : ℕ} {r : Ipc.Received ℕ} {e' : Ipc.Endpoint ℕ} (space : SpacePtr)
    (hleaves : Ipc.Leaves (s.endpoint e) r e') :
    ∃ Q', Inv (ReplyState.deliver { s with endpoint := update s.endpoint e e' } space r) Q' := by
  cases r with
  | taken x =>
    cases x with
    | async => exact ⟨Q, h.setEndpoint hleaves⟩
    | sync x =>
      obtain ⟨hx, l, -, hqueue, hpopped⟩ := @Inv.pop s Q h e x e' hleaves
      refine ⟨update Q e l, ?_⟩
      cases hcall : x.isCall with
      | true =>
        simp only [ReplyState.deliver, hcall, if_true]
        exact hpopped.createReturnTask hx hqueue
      | false =>
        simp only [ReplyState.deliver, hcall]
        exact hpopped.resume hx.waits hqueue fun a r hr _ => hx.no_task a r hr
  | interrupted => exact ⟨Q, h.setEndpoint hleaves⟩
  | isNull => exact ⟨Q, h.setEndpoint hleaves⟩
  | error => exact ⟨Q, h.setEndpoint hleaves⟩

/-- A reply whose return task has no entry any more. -/
theorem Inv.reply (h : Inv s Q) {a : AssetPtr} {r : ReturnTask} (hr : s.returnTask a = some r)
    (hgone : ¬ Held s.spaces a) (hzero : s.replies r.call = 0) (hwaits : s.waiting r.target = some r.call) :
    Inv { s with
      replies := update s.replies r.call (s.replies r.call + 1)
      late := s.late || s.waiting r.target ≠ some r.call
      waiting := update s.waiting r.target none } Q := by
  have hqueue : ∀ e, ∀ x ∈ Q e, x.kernelMemMsg ≠ r.call := fun e x hx =>
    ((h.queued e x hx).no_task a r hr).symm
  have htask : ∀ a' r', s.returnTask a' = some r' → Held s.spaces a' → r'.call ≠ r.call := by
    intro a' r' hr' ha' heq
    rw [h.distinct a' a r' r hr' hr heq] at ha'
    exact hgone ha'
  have hresumed := h.resume hwaits hqueue htask
  refine ⟨hresumed.repr, hresumed.nodup, hresumed.apart, fun e x hx => ?_, hresumed.task, hresumed.distinct,
    hresumed.held, fun a' r' hr' ha' => ?_, fun c hc => ?_, fun c => ?_, ?_⟩
  · obtain ⟨hlt, hwaits, hzero, hno⟩ := hresumed.queued e x hx
    refine ⟨hlt, hwaits, ?_, hno⟩
    dsimp only
    rw [Function.update_of_ne (hqueue e x hx)]
    exact hzero
  · obtain ⟨hzero, hwaits⟩ := hresumed.owed a' r' hr' ha'
    refine ⟨?_, hwaits⟩
    dsimp only
    rw [Function.update_of_ne (htask a' r' hr' ha')]
    exact hzero
  · have hne : c ≠ r.call := fun heq => Nat.not_lt_of_le hc (heq ▸ (h.task a r hr).2)
    dsimp only
    rw [Function.update_of_ne hne]
    exact h.fresh c hc
  · show update s.replies r.call (s.replies r.call + 1) c ≤ 1
    by_cases hc : c = r.call
    · calc update s.replies r.call (s.replies r.call + 1) c
          _ = s.replies r.call + 1 := by rw [hc, Function.update_self]
          _ ≤ 1 := Nat.le_of_eq (congrArg Nat.succ hzero)
    · rw [Function.update_of_ne hc]
      exact h.replied.once c
  · show (s.late || decide (s.waiting r.target ≠ some r.call)) = false
    rw [h.replied.late, hwaits]
    simp

/-! ### Steps -/

theorem inv_ipcReply (h : Inv s Q) {space : SpacePtr} {handle : ℕ} {args : IpcMessageArguments} {a : AssetPtr}
    {r : ReturnTask} (ha : (s.spaces space).assetAt handle = some a) (hr : s.returnTask a = some r)
    (honly : s.OnlyEntry (.reply space handle args)) (hs : s.ipcReply space handle r args = some s') :
    Inv s' Q := by
  obtain ⟨hentries, hcopies⟩ := honly a r ha hr
  obtain ⟨ref, href, -⟩ := AssetTable.assetAt_eq_some.mp ha
  have hsole : Sole s.spaces space handle a := ⟨(s.spaces space).le_allocUid href, .inl hentries⟩
  unfold ipcReply at hs
  split at hs
  · cases hs
  · rename_i hupdate
    cases hs
    exact h.setSpaces fun _ => held_update hupdate
  · rename_i w hupdate
    unfold assetRelease at hs
    split at hs
    · cases hs
    · rename_i hfound
      cases hs
      -- the entry that is removed was the only one
      have hgone : ¬ Held (update w space ((w space).moveOut handle)) a := by
        intro hheld
        obtain ⟨p, k, hk, hne⟩ := held_moveOut hheld
        obtain ⟨-, honly | hother⟩ := sole_update hupdate hcopies hsole
        · exact hne (honly p k hk)
        · exact hfound (AssetTable.assetAt_eq_none.mp hother)
      have hreleased : Inv { s with spaces := update w space ((w space).moveOut handle) } Q := by
        refine h.setSpaces fun b hb => ?_
        obtain ⟨p, k, hk, -⟩ := held_moveOut hb
        exact held_update hupdate ⟨p, k, hk⟩
      obtain ⟨hzero, hwaits⟩ := h.owed a r hr ⟨space, handle, ha⟩
      exact hreleased.reply hr hgone hzero hwaits

theorem inv_step (o : ReplyOp) (h : ∃ Q, Inv s Q) (honly : s.OnlyEntry o) (hs : s.step o = some s') :
    ∃ Q, Inv s' Q := by
  obtain ⟨Q, h⟩ := h
  cases o with
  | send t source e isCall mapped args =>
    simp only [step] at hs
    split at hs
    · cases hs
    · rename_i ht
      split at hs
      · cases hs
      · rename_i hupdate
        cases hs
        exact ⟨Q, h.setSpaces fun _ => held_update hupdate⟩
      · rename_i hupdate
        have hspaces := h.setSpaces fun _ => held_update hupdate
        split at hs
        · cases hs
          exact ⟨_, hspaces.send (not_ne_iff.mp ht)⟩
        · cases hs
          exact ⟨Q, hspaces⟩
  | sendAsync source e args =>
    simp only [step] at hs
    split at hs
    · cases hs
    · rename_i hupdate
      cases hs
      exact ⟨Q, h.setSpaces fun _ => held_update hupdate⟩
    · rename_i hupdate
      cases hs
      exact ⟨Q, (h.setSpaces fun _ => held_update hupdate).setEndpoint rfl⟩
  | receive space e =>
    obtain ⟨⟨r, e'⟩, hreceive, rfl⟩ := Option.map_eq_some_iff.mp hs
    exact h.deliver space (Ipc.receive_leaves hreceive)
  | receiveAsync space e =>
    obtain ⟨⟨r, e'⟩, hreceive, rfl⟩ := Option.map_eq_some_iff.mp hs
    exact h.deliver space (Ipc.receiveAsync_leaves hreceive)
  | reply space handle args =>
    simp only [step] at hs
    split at hs
    · cases hs
      exact ⟨Q, h⟩
    · rename_i r hfind
      obtain ⟨a, ha, hr⟩ := Option.bind_eq_some_iff.mp hfind
      exact ⟨Q, inv_ipcReply h ha hr honly hs⟩
  | move source target handle =>
    simp only [step] at hs
    split at hs
    · cases hs
      exact ⟨Q, h⟩
    · rename_i hfind
      split at hs
      · cases hs
        exact ⟨Q, h⟩
      · rename_i hmove
        cases hs
        exact ⟨Q, h.setSpaces fun _ => (entered_move (AssetTable.byHandle_ok hfind) hmove).held⟩
  | copy source target handle =>
    simp only [step] at hs
    split at hs
    · cases hs
      exact ⟨Q, h⟩
    · rename_i hfind
      obtain ⟨res, hcopy, rfl⟩ := Option.map_eq_some_iff.mp hs
      cases res with
      | error e => exact ⟨Q, h⟩
      | ok res => exact ⟨Q, h.setSpaces fun _ => (entered_copy (AssetTable.byHandle_ok hfind) hcopy).held⟩
  | release space handle =>
    simp only [step, assetRelease] at hs
    split at hs
    · cases hs
      exact ⟨Q, h⟩
    · cases hs
      refine ⟨Q, h.setSpaces fun a ha => ?_⟩
      obtain ⟨p, k, hk, -⟩ := held_moveOut ha
      exact ⟨p, k, hk⟩

theorem inv_start {spaces : Spaces} {nextPtr : AssetPtr} (messageSpace : ℕ → Option SpacePtr)
    (spaceOf : ℕ → SpacePtr) (hspaces : ∀ a, Held spaces a → a < nextPtr) :
    Inv { spaces, messageSpace, spaceOf, nextPtr } fun _ => [] where
  repr _ := Ring.repr_empty
  nodup _ := List.nodup_nil
  apart _ _ _ _ hx := absurd hx List.not_mem_nil
  queued _ _ hx := absurd hx List.not_mem_nil
  task _ _ hr := nomatch hr
  distinct _ _ _ _ hr := nomatch hr
  held := hspaces
  owed _ _ hr := nomatch hr
  fresh _ _ := rfl
  replied := ⟨fun _ => Nat.zero_le 1, rfl⟩

/-- **At most one reply to a call.** From any tables, after any operations of
which every reply is made with the only entry of its return task. -/
theorem replied_once (spaces : Spaces) (messageSpace : ℕ → Option SpacePtr) (spaceOf : ℕ → SpacePtr)
    (nextPtr : AssetPtr) (hspaces : ∀ a, Held spaces a → a < nextPtr) (ops : List ReplyOp) (s : ReplyState)
    (honly : Lib.Meets step OnlyEntry ops { spaces, messageSpace, spaceOf, nextPtr })
    (hrun : Lib.run step ops { spaces, messageSpace, spaceOf, nextPtr } = some s) : RepliedOnce s := by
  obtain ⟨Q, h⟩ := Lib.run_invariant_of_meets (P := fun s => ∃ Q, Inv s Q)
    (fun _ o _ h honly hs => inv_step o h honly hs) ops honly
    ⟨_, inv_start messageSpace spaceOf hspaces⟩ hrun
  exact h.replied

/-- No asset yet. Every endpoint takes its assets to the space 10, and every
task is of the space 30. -/
def noAssets : ReplyState where
  spaces _ := AssetTable.empty 0
  messageSpace _ := some 10
  spaceOf _ := 30
  nextPtr := 1

theorem not_held_noAssets (a : AssetPtr) : ¬ Held noAssets.spaces a := fun ⟨_, _, hk⟩ => nomatch hk

/-- The task 0 calls, and a task of the space 10 replies. -/
def callReceiveReply : List ReplyOp := [.send 0 30 0 true true .empty, .receive 10 0, .reply 10 1 .empty]

theorem replied_once_one : ∃ s, Lib.run step callReceiveReply noAssets = some s ∧ s.replies 0 = 1 ∧
    RepliedOnce s := by
  refine ⟨_, rfl, by decide, replied_once noAssets.spaces noAssets.messageSpace noAssets.spaceOf 1
    (fun a ha => absurd ha (not_held_noAssets a)) callReceiveReply _ ?_ rfl⟩
  refine ⟨trivial, fun s' hs' => ?_⟩
  cases hs'
  refine ⟨trivial, fun s' hs' => ?_⟩
  cases hs'
  refine ⟨fun a r _ hr => ⟨fun p k hk => ?_, fun d hd hasset => ?_⟩, fun _ _ => trivial⟩
  · -- the table of the space 10 has the entry the receive made, and no other
    have hk' : (update (fun _ : SpacePtr => AssetTable.empty 0) 10 ((AssetTable.empty 0).insertNew
        { asset := some 1, handle := 0 } (Option.some_ne_none _)) p).assetAt k = some a := hk
    rw [Function.update_apply] at hk'
    by_cases hp : p = 10
    · rw [if_pos hp, AssetTable.assetAt_insertNew] at hk'
      by_cases hnew : k = (AssetTable.empty 0).allocUid + 1
      · exact ⟨hp, hnew⟩
      · rw [if_neg hnew] at hk'
        cases hk'
    · rw [if_neg hp] at hk'
      cases hk'
  · rw [List.eq_of_mem_replicate hd] at hasset
    cases hasset

/-- The server copies the handle of the return task to itself, by a message to
an endpoint of its own, and replies with both. -/
theorem replied_twice : ∃ s, Lib.run step [.send 0 30 0 true true {}, .receive 10 0,
    .sendAsync 10 1 { data := { isAsset := true, copyAsset := true, value := 1 } :: List.replicate 5 {} },
    .reply 10 1 {}, .reply 10 2 {}] noAssets = some s ∧
    s.replies 0 = 2 ∧ s.late = true ∧ ¬ RepliedOnce s := by
  refine ⟨_, rfl, by decide, by decide, fun h => ?_⟩
  exact absurd (h.once 0) (by decide)

end ReplyState
end WingOS
