/-
# Sending assets

`ipc_send` and `ipc_send_async` up to the point where the message is queued
(`kernel/generic/ipc.cpp`). The assets a message names are moved or copied to
the receiver's space one argument after the other, then the endpoint's lock is
taken, then `ipc_send` looks up the page of the message. No error path undoes
anything. A failed send is without effect only if nothing was done before the
error: the first asset of the message is the one that fails
(`send_fails_cleanly_iff`).

What the send does to the scheduler once the message is queued is in
`WingOS.Wakeup`.

Key definitions: `updateInplaceMessage`, `ipcSend`, `ipcSendAsync`, `Names`,
`Available`, `FailsCleanly`.
Key theorems: `updateInplaceMessage_keeps`, `transfer_cases`, `update_cases`,
`send_fails_cleanly_iff`.
-/
import WingOS.AssetTable
import WingOS.Ipc

namespace WingOS
namespace IpcSend

/-- One argument of a message. `value` is the union of `data` and
`asset_handle`. -/
structure IpcData where
  isAsset : Bool := false
  copyAsset : Bool := false
  value : ℕ := 0

def DataCount : ℕ := 6

structure IpcMessageArguments where
  data : List IpcData := List.replicate DataCount {}
  size : data.length = DataCount := by rfl

/-- Arguments that are all zero. -/
def IpcMessageArguments.empty : IpcMessageArguments := {}

structure IpcMessage where
  arguments : IpcMessageArguments := {}
  port : ℕ := 0
  len : ℕ := 0
  isNull : Bool := false
  interrupted : Bool := false
  buffer : ℕ → ℕ := fun _ => 0

def IpcMessage.empty : IpcMessage where
  arguments := .empty

/-- The body of the loop of `update_inplace_message`, for one argument. -/
def transfer (target : Option SpacePtr) (source : SpacePtr) (d : IpcData) (w : Spaces) :
    Option (Except String (IpcData × Spaces)) :=
  if d.isAsset then
    match (w source).byHandle d.value with
    | .error _ => some (.error "asset not found in client space")
    | .ok assetPtr =>
      if !d.copyAsset then
        some ((assetMove (some source) target assetPtr w).map fun (r, w) => ({ d with value := r.handle }, w))
      else
        (assetCopy target assetPtr w).map fun res =>
          res.map fun (r, w) => ({ d with value := r.handle }, w)
  else some (.ok (d, w))

/-- `update_inplace_message`: how it returns, the arguments and the tables
after it. It stops at the first error. -/
def updateInplaceMessage (target : Option SpacePtr) (source : SpacePtr) :
    List IpcData → Spaces → Option (Except String Unit × List IpcData × Spaces)
  | [], w => some (.ok (), [], w)
  | d :: ds, w =>
    match transfer target source d w with
    | none => none
    | some (.error e) => some (.error e, d :: ds, w)
    | some (.ok (d, w)) =>
      (updateInplaceMessage target source ds w).map fun (res, ds, w) => (res, d :: ds, w)

/-- The state a send works on: the tables of all spaces and the endpoint. -/
structure World where
  spaces : Spaces
  endpoint : Ipc.Endpoint IpcMessage

/-- How a send returns. `locked` says that it has taken the endpoint's lock
and not released it. -/
structure Sent where
  result : Except String Unit
  world : World
  msg : IpcMessage
  locked : Bool

structure Connection where
  port : ℕ
  /-- `connection_to->target_message_space` -/
  targetMessageSpace : Option SpacePtr

theorem length_updateInplaceMessage {target : Option SpacePtr} {source : SpacePtr} :
    ∀ {ds : List IpcData} {w w' : Spaces} {res : Except String Unit} {ds' : List IpcData},
    updateInplaceMessage target source ds w = some (res, ds', w') → ds'.length = ds.length
  | [], w, w', res, ds', h => by
    simp only [updateInplaceMessage, Option.some_inj, Prod.mk.injEq] at h
    rw [← h.2.1]
  | d :: ds, w, w', res, ds', h => by
    unfold updateInplaceMessage at h
    split at h
    · cases h
    · simp only [Option.some_inj, Prod.mk.injEq] at h
      rw [← h.2.1]
    · obtain ⟨⟨res1, ds1, w1⟩, h1, h2⟩ := Option.map_eq_some_iff.mp h
      simp only [Prod.mk.injEq] at h2
      rw [← h2.2.1, List.length_cons, List.length_cons, length_updateInplaceMessage h1]

/-- What every transfer of an argument keeps, the transfer of all arguments
keeps, whether or not it gets to the end. -/
theorem updateInplaceMessage_keeps {target : Option SpacePtr} {source : SpacePtr} {P : Spaces → Prop} :
    ∀ {ds ds' : List IpcData} {w w' : Spaces} {res : Except String Unit},
    updateInplaceMessage target source ds w = some (res, ds', w') →
    (∀ d ∈ ds, ∀ w d' w', transfer target source d w = some (.ok (d', w')) → P w → P w') → P w → P w'
  | [], ds', w, w', res, h, _, hP => by
    cases h
    exact hP
  | d :: ds, ds', w, w', res, h, hkeeps, hP => by
    obtain ⟨hd, hds⟩ := List.forall_mem_cons.mp hkeeps
    unfold updateInplaceMessage at h
    split at h
    · cases h
    · cases h
      exact hP
    · rename_i d₁ w₁ ht
      obtain ⟨⟨res₁, ds₁, w₂⟩, hrest, heq⟩ := Option.map_eq_some_iff.mp h
      cases heq
      exact updateInplaceMessage_keeps hrest hds (hd w d₁ w₁ ht hP)

/-- The arguments after a transfer that returned `ds`. -/
def IpcMessageArguments.withData (args : IpcMessageArguments) {target : Option SpacePtr}
    {source : SpacePtr} {w w' : Spaces} {res : Except String Unit} {ds : List IpcData}
    (h : updateInplaceMessage target source args.data w = some (res, ds, w')) :
    IpcMessageArguments where
  data := ds
  size := (length_updateInplaceMessage h).trans args.size

/-- `kernel::ipc_send` up to `tick++`; `phys` is what `get_phys` finds for the
address of the message in the page table of the sender. -/
def ipcSend (source : SpacePtr) (callee : ℕ) (connection : Connection) (phys : Option ℕ)
    (msg : IpcMessage) (isCall : Bool) (s : World) : Option Sent :=
  let msg := { msg with port := connection.port }
  match h : updateInplaceMessage connection.targetMessageSpace source msg.arguments.data s.spaces with
  | none => none
  | some (.error _, _, w) =>
    some {
      result := .error "failed to update inplace message"
      world := { s with spaces := w }
      msg := { msg with arguments := {} }
      locked := false }
  | some (.ok (), ds, w) =>
    let msg := { msg with arguments := msg.arguments.withData h }
    match phys with
    -- between `endpoint.lock()` and `endpoint.unlock()`
    | none =>
      some {
        result := .error "failed to get phys addr of message"
        world := { s with spaces := w }
        msg
        locked := true }
    | some _ =>
      some {
        result := .ok ()
        world := { spaces := w, endpoint := s.endpoint.send msg callee isCall }
        msg
        locked := false }

/-- `kernel::ipc_send_async`. -/
def ipcSendAsync (source : SpacePtr) (connection : Connection) (msg : IpcMessage) (s : World) :
    Option Sent :=
  let msg := { msg with port := connection.port }
  match h : updateInplaceMessage connection.targetMessageSpace source msg.arguments.data s.spaces with
  | none => none
  | some (.error _, _, w) =>
    some {
      result := .error "failed to update inplace message"
      world := { s with spaces := w }
      msg := { msg with arguments := {} }
      locked := false }
  | some (.ok (), ds, w) =>
    let msg := { msg with arguments := msg.arguments.withData h }
    some {
      result := .ok ()
      world := { spaces := w, endpoint := s.endpoint.sendAsync msg }
      msg
      locked := false }

/-! ### When a message can be transferred -/

section Args

variable (target : Option SpacePtr) (source : SpacePtr) (w : Spaces) (args : List IpcData)

/-- The `i`-th asset argument names the asset `a`: its handle is in the table
of the sender, or the message goes to the sender's own space and the handle is
the one that the `j`-th argument is about to get there. -/
inductive Names : ℕ → AssetPtr → Prop
  | table {i : ℕ} {d : IpcData} {a : AssetPtr} :
    args[i]? = some d → (w source).assetAt d.value = some a → Names i a
  | fresh {i j : ℕ} {d : IpcData} {a : AssetPtr} :
    target = some source → args[i]? = some d → j < i →
    d.value = (w source).allocUid + 1 + j → Names j a → Names i a

/-- No argument before the `i`-th moves the same handle away. -/
def NotMoved (i : ℕ) : Prop :=
  ∀ j < i, ∀ d e, args[i]? = some d → args[j]? = some e → e.copyAsset = false → e.value ≠ d.value

def Available (i : ℕ) : Prop := (∃ a, Names target source w args i a) ∧ NotMoved args i

/-- The `i`-th argument is a copy of the target space itself. -/
def CopiesTarget (i : ℕ) : Prop :=
  ∃ d a, args[i]? = some d ∧ d.copyAsset = true ∧ Names target source w args i a ∧ target = some a

/-- The first asset cannot be transferred. -/
def FirstFails : Prop :=
  args ≠ [] ∧ (target = none ∨ ¬ ∃ a, Names target source w args 0 a)

/-- Every asset can. -/
def AllAvailable : Prop :=
  (args = [] ∨ target ≠ none) ∧ ∀ i < args.length, Available target source w args i

/-- The transfer gets to a copy of the target space into itself. -/
def Stuck : Prop :=
  ∃ i, CopiesTarget target source w args i ∧ ∀ j ≤ i, Available target source w args j

end Args

/-- The arguments that are assets. -/
def IpcMessage.assets (msg : IpcMessage) : List IpcData := msg.arguments.data.filter IpcData.isAsset

/-- If the call returns an error, the tables of both spaces and the endpoint
are as before it, and it does not hold the endpoint's lock. -/
def FailsCleanly (source : SpacePtr) (target : Option SpacePtr) (s : World) (out : Option Sent) : Prop :=
  ∀ r e, out = some r → r.result = .error e →
    (r.world.spaces source).assets = (s.spaces source).assets ∧
    (∀ t, target = some t → (r.world.spaces t).assets = (s.spaces t).assets) ∧
    r.world.endpoint = s.endpoint ∧ r.locked = false

/-! ### One argument -/

section Transfer

variable {source t : SpacePtr} {d : IpcData} {w : Spaces} {a : AssetPtr}

theorem transfer_of_not_asset {target : Option SpacePtr} (hd : d.isAsset = false) :
    transfer target source d w = some (.ok (d, w)) := by
  unfold transfer
  rw [hd, if_neg Bool.false_ne_true]

/-- What a transfer that gets through has done. -/
theorem transfer_cases {target : Option SpacePtr} {d' : IpcData} {w' : Spaces}
    (h : transfer target source d w = some (.ok (d', w'))) :
    d.isAsset = false ∧ d' = d ∧ w' = w ∨
    d.isAsset = true ∧ ∃ r r', (w source).assets d.value = some r ∧ d' = { d with value := r'.handle } ∧
      (d.copyAsset = false ∧ assetMove (some source) target r w = .ok (r', w') ∨
        d.copyAsset = true ∧ assetCopy target r w = some (.ok (r', w'))) := by
  unfold transfer at h
  by_cases hasset : d.isAsset = true
  · rw [if_pos hasset] at h
    refine .inr ⟨hasset, ?_⟩
    split at h
    · cases h
    · rename_i r hfind
      have hr := AssetTable.byHandle_ok hfind
      by_cases hmoved : (!d.copyAsset) = true
      · rw [if_pos hmoved, Option.some_inj] at h
        cases hmove : assetMove (some source) target r w with
        | error e =>
          rw [hmove] at h
          cases h
        | ok res =>
          rw [hmove] at h
          cases h
          exact ⟨r, res.1, hr, rfl, .inl ⟨by simpa using hmoved, hmove⟩⟩
      · rw [if_neg hmoved, Option.map_eq_some_iff] at h
        obtain ⟨res, hcopy, h⟩ := h
        cases res with
        | error e => cases h
        | ok res =>
          cases h
          exact ⟨r, res.1, hr, rfl, .inr ⟨by simpa using hmoved, hcopy⟩⟩
  · rw [if_neg hasset] at h
    cases h
    exact .inl ⟨Bool.eq_false_iff.mpr hasset, rfl, rfl⟩

theorem transfer_null (source : SpacePtr) (w : Spaces) (hd : d.isAsset = true) :
    ∃ e, transfer none source d w = some (.error e) := by
  unfold transfer
  rw [if_pos hd]
  split
  · exact ⟨_, rfl⟩
  · split
    · exact ⟨"from or to space is null", rfl⟩
    · exact ⟨"from or to space is null", rfl⟩

theorem transfer_missing (target : Option SpacePtr) (hd : d.isAsset = true)
    (h : (w source).assetAt d.value = none) : ∃ e, transfer target source d w = some (.error e) := by
  rw [AssetTable.assetAt_eq_none] at h
  unfold transfer AssetTable.byHandle
  rw [if_pos hd, h]
  exact ⟨_, rfl⟩

theorem transfer_stuck (hd : d.isAsset = true) (hc : d.copyAsset = true)
    (h : (w source).assetAt d.value = some t) : transfer (some t) source d w = none := by
  obtain ⟨r, hr, ha⟩ := AssetTable.assetAt_eq_some.mp h
  have hne : r.asset ≠ none := by simp [ha]
  unfold transfer AssetTable.byHandle assetCopy
  rw [if_pos hd, hr]
  simp [hc, ha]

/-- An asset argument that is found goes to the target under a new handle, and
its own handle is gone if it is moved. -/
theorem transfer_found (hd : d.isAsset = true) (h : (w source).assetAt d.value = some a)
    (hc : ¬ (d.copyAsset = true ∧ a = t)) :
    ∃ d' w', transfer (some t) source d w = some (.ok (d', w')) ∧
      (w' t).allocUid = (w t).allocUid + 1 ∧
      (w' t).assetAt ((w t).allocUid + 1) = some a ∧
      ∀ k, (w' source).assetAt k = if d.copyAsset = false ∧ k = d.value then none
        else if source = t ∧ k = (w source).allocUid + 1 then some a else (w source).assetAt k := by
  obtain ⟨r, hr, ha⟩ := AssetTable.assetAt_eq_some.mp h
  unfold transfer AssetTable.byHandle
  rw [if_pos hd, hr, ← ha]
  cases hcopy : d.copyAsset with
  | false =>
    obtain ⟨w', hm, huid, hat⟩ := assetMove_ok t hr
    have hle := AssetTable.le_allocUid _ hr
    refine ⟨{ d with value := (w t).allocUid + 1 }, w', ?_, huid, ?_, fun k => ?_⟩
    · simp [hm, Except.map, hcopy]
    · rw [hat, if_neg, if_pos ⟨rfl, rfl⟩]
      rintro ⟨rfl, h'⟩
      omega
    · rw [hat]
      rcases eq_or_ne source t with rfl | hst
      · simp
      · simp [hst]
  | true =>
    have hne : r.asset ≠ some t := fun h' => hc ⟨hcopy, Option.some.inj (ha.symm.trans h')⟩
    obtain ⟨w', hm, huid, hnew, hsrc⟩ := assetCopy_ok hr hne
    refine ⟨{ d with value := (w t).allocUid + 1 }, w', ?_, huid, hnew, fun k => ?_⟩
    · simp [hm, Except.map, hcopy]
    · simpa using hsrc k

end Transfer

/-! ### The whole message -/

/-- The tables after the first `n` asset arguments have been transferred. -/
structure Done (t source : SpacePtr) (w₀ : Spaces) (args : List IpcData) (n : ℕ) (w : Spaces) :
    Prop where
  uid : (w t).allocUid = (w₀ t).allocUid + n
  zero : n = 0 → w = w₀
  last : 0 < n → (w t).assetAt ((w₀ t).allocUid + n) ≠ none
  le : source = t → ∀ j < n, ∀ e, args[j]? = some e → e.value ≤ (w₀ t).allocUid + j
  /-- A handle of the source is one it had or, if it is the target too, one of
  the new ones; and no argument has moved it. -/
  source : ∀ h a, (w source).assetAt h = some a ↔
    ((w₀ source).assetAt h = some a ∨
      source = t ∧ ∃ j < n, h = (w₀ source).allocUid + 1 + j ∧ Names (some t) source w₀ args j a) ∧
    ∀ j < n, ∀ e, args[j]? = some e → e.copyAsset = false → e.value ≠ h

section Run

variable {t source : SpacePtr} {w₀ w : Spaces} {args : List IpcData} {n : ℕ}

theorem done_zero : Done t source w₀ args 0 w₀ where
  uid := rfl
  zero := fun _ => rfl
  last := fun h => absurd h (Nat.lt_irrefl 0)
  le := fun _ _ h => absurd h (Nat.not_lt_zero _)
  source := by
    intro h a
    simp

/-- The source finds the next argument exactly if it names an asset and no
argument has moved it. -/
theorem Done.assetAt_iff (hd : Done t source w₀ args n w) {d : IpcData} (hn : args[n]? = some d)
    {a : AssetPtr} :
    (w source).assetAt d.value = some a ↔ Names (some t) source w₀ args n a ∧ NotMoved args n := by
  rw [hd.source]
  constructor
  · rintro ⟨hname, hmoved⟩
    refine ⟨?_, fun j hj d' e hd' he hc => ?_⟩
    · rcases hname with htab | ⟨hst, j, hj, hval, hjn⟩
      · exact .table hn htab
      · exact .fresh (by rw [hst]) hn hj hval hjn
    · obtain rfl : d = d' := by
        rw [hn] at hd'
        exact Option.some.inj hd'
      exact hmoved j hj e he hc
  · rintro ⟨hname, hmoved⟩
    refine ⟨?_, fun j hj e he hc => hmoved j hj d e hn he hc⟩
    cases hname with
    | table hi htab =>
      rw [hn, Option.some_inj] at hi
      exact .inl (hi ▸ htab)
    | fresh hst hi hj hval hjn =>
      rw [hn, Option.some_inj] at hi
      exact .inr ⟨(Option.some.inj hst).symm, _, hj, hi ▸ hval, hjn⟩

/-- The handle that the `n`-th asset gets is not one that an earlier argument
moves. -/
theorem Done.succ (hd : Done t source w₀ args n w) {d : IpcData} (hn : args[n]? = some d)
    {a : AssetPtr} (ha : (w source).assetAt d.value = some a) {w' : Spaces}
    (huid : (w' t).allocUid = (w t).allocUid + 1)
    (hnew : (w' t).assetAt ((w t).allocUid + 1) = some a)
    (hsrc : ∀ k, (w' source).assetAt k = if d.copyAsset = false ∧ k = d.value then none
      else if source = t ∧ k = (w source).allocUid + 1 then some a else (w source).assetAt k) :
    Done t source w₀ args (n + 1) w' := by
  have hlast : ∀ e, args[n]? = some e → e = d := by
    intro e he
    rw [hn] at he
    exact (Option.some.inj he).symm
  have hle : source = t → ∀ j < n + 1, ∀ e, args[j]? = some e → e.value ≤ (w₀ t).allocUid + j := by
    intro hst j hj e he
    rcases Nat.lt_succ_iff_lt_or_eq.mp hj with hj | rfl
    · exact hd.le hst j hj e he
    · obtain ⟨r, hr, -⟩ := AssetTable.assetAt_eq_some.mp ha
      have := (w source).le_allocUid hr
      rw [hlast e he, ← hd.uid, ← hst]
      exact this
  refine ⟨by rw [huid, hd.uid, Nat.add_assoc], nofun, fun _ => ?_, hle, fun h b => ?_⟩
  · rw [← Nat.add_assoc, ← hd.uid, hnew]
    exact Option.some_ne_none a
  · rw [hsrc]
    by_cases hmv : d.copyAsset = false ∧ h = d.value
    · rw [if_pos hmv]
      exact ⟨nofun, fun hb => absurd hmv.2.symm (hb.2 n (Nat.lt_succ_self n) d hn hmv.1)⟩
    rw [if_neg hmv]
    have hnot : ∀ e, args[n]? = some e → e.copyAsset = false → e.value ≠ h := by
      intro e he hc hv
      rw [hlast e he] at hc hv
      exact hmv ⟨hc, hv.symm⟩
    by_cases hfresh : source = t ∧ h = (w source).allocUid + 1
    · rw [if_pos hfresh]
      obtain ⟨rfl, hh⟩ := hfresh
      have huid0 := hd.uid
      constructor
      · intro hab
        obtain rfl := Option.some.inj hab
        refine ⟨.inr ⟨rfl, n, Nat.lt_succ_self n, by omega, ((hd.assetAt_iff hn).mp ha).1⟩, ?_⟩
        intro j hj e he hc hv
        have := hle rfl j hj e he
        omega
      · rintro ⟨hname, -⟩
        rcases hname with htab | ⟨-, j, hj, hval, hjn⟩
        · rw [AssetTable.assetAt_of_lt (by omega)] at htab
          cases htab
        · obtain rfl : j = n := by omega
          have hb := (hd.assetAt_iff hn).mpr ⟨hjn, ((hd.assetAt_iff hn).mp ha).2⟩
          rw [← ha, hb]
    · rw [if_neg hfresh, hd.source]
      constructor
      · rintro ⟨hname, hmoved⟩
        refine ⟨?_, fun j hj e he hc => ?_⟩
        · rcases hname with htab | ⟨hst, j, hj, hval, hjn⟩
          · exact .inl htab
          · exact .inr ⟨hst, j, by omega, hval, hjn⟩
        · rcases Nat.lt_succ_iff_lt_or_eq.mp hj with hj | rfl
          · exact hmoved j hj e he hc
          · exact hnot e he hc
      · rintro ⟨hname, hmoved⟩
        refine ⟨?_, fun j hj e he hc => hmoved j (by omega) e he hc⟩
        rcases hname with htab | ⟨hst, j, hj, hval, hjn⟩
        · exact .inl htab
        · refine .inr ⟨hst, j, ?_, hval, hjn⟩
          have huid0 := hd.uid
          rcases Nat.lt_succ_iff_lt_or_eq.mp hj with hj | rfl
          · exact hj
          · refine absurd ⟨hst, ?_⟩ hfresh
            rw [hst] at hval ⊢
            omega

/-- What the loop can do with the arguments from the `n`-th on. -/
inductive Outcome (t source : SpacePtr) (w₀ : Spaces) (args : List IpcData) (n : ℕ) :
    Option (Except String Unit × List IpcData × Spaces) → Prop
  | all {ds : List IpcData} {w : Spaces} :
    (∀ i, n ≤ i → i < args.length → Available (some t) source w₀ args i ∧
      ¬ CopiesTarget (some t) source w₀ args i) →
    Outcome t source w₀ args n (some (.ok (), ds, w))
  | stuck {i : ℕ} :
    n ≤ i → CopiesTarget (some t) source w₀ args i →
    (∀ j, n ≤ j → j ≤ i → Available (some t) source w₀ args j) →
    Outcome t source w₀ args n none
  /-- It stops at the `m`-th, the first that is not available. -/
  | stops {m : ℕ} {e : String} {ds : List IpcData} {w : Spaces} :
    n ≤ m → m < args.length → Done t source w₀ args m w →
    ¬ Available (some t) source w₀ args m →
    (∀ j, n ≤ j → j < m → Available (some t) source w₀ args j ∧
      ¬ CopiesTarget (some t) source w₀ args j) →
    Outcome t source w₀ args n (some (.error e, ds, w))

variable {out : Option (Except String Unit × List IpcData × Spaces)}

theorem Outcome.map_cons (h : Outcome t source w₀ args n out) (d : IpcData) :
    Outcome t source w₀ args n (out.map fun (res, ds, w) => (res, d :: ds, w)) := by
  cases h with
  | all hall => exact .all hall
  | stuck hi hc hav => exact .stuck hi hc hav
  | stops hm hlt hdone hna hav => exact .stops hm hlt hdone hna hav

theorem Outcome.pred (h : Outcome t source w₀ args (n + 1) out)
    (ha : Available (some t) source w₀ args n) (hc : ¬ CopiesTarget (some t) source w₀ args n) :
    Outcome t source w₀ args n out := by
  cases h with
  | all hall =>
    refine .all fun i hni hi => ?_
    rcases Nat.eq_or_lt_of_le hni with rfl | hlt
    · exact ⟨ha, hc⟩
    · exact hall i hlt hi
  | stuck hi hci hav =>
    refine .stuck (Nat.le_of_succ_le hi) hci fun j hnj hj => ?_
    rcases Nat.eq_or_lt_of_le hnj with rfl | hlt
    · exact ha
    · exact hav j hlt hj
  | stops hm hlen hdone hna hav =>
    refine .stops (Nat.le_of_succ_le hm) hlen hdone hna fun j hnj hj => ?_
    rcases Nat.eq_or_lt_of_le hnj with rfl | hlt
    · exact ⟨ha, hc⟩
    · exact hav j hlt hj

theorem update_cases : ∀ (rest : List IpcData) {n : ℕ} {w : Spaces},
    Done t source w₀ args n w → rest.filter IpcData.isAsset = args.drop n →
    Outcome t source w₀ args n (updateInplaceMessage (some t) source rest w)
  | [], n, w, hdone, hrest => by
    refine .all fun i hni hi => ?_
    have : args.length ≤ n := List.drop_eq_nil_iff.mp hrest.symm
    omega
  | d :: rest, n, w, hdone, hrest => by
    unfold updateInplaceMessage
    cases hd : d.isAsset with
    | false =>
      rw [List.filter_cons_of_neg (by simp [hd])] at hrest
      rw [transfer_of_not_asset hd]
      exact (update_cases rest hdone hrest).map_cons d
    | true =>
      rw [List.filter_cons_of_pos hd] at hrest
      have hn : args[n]? = some d := by
        rw [← List.head?_drop, ← hrest]
        rfl
      have hrest' : rest.filter IpcData.isAsset = args.drop (n + 1) := by
        rw [← List.tail_drop, ← hrest]
        rfl
      have hlt : n < args.length := (List.getElem?_eq_some_iff.mp hn).1
      cases ha : (w source).assetAt d.value with
      | none =>
        obtain ⟨e, he⟩ := transfer_missing (some t) hd ha
        rw [he]
        refine .stops (Nat.le_refl n) hlt hdone ?_ fun j hj hj' => absurd hj' (Nat.not_lt.mpr hj)
        rintro ⟨⟨a, hname⟩, hmoved⟩
        rw [(hdone.assetAt_iff hn).mpr ⟨hname, hmoved⟩] at ha
        cases ha
      | some a =>
        obtain ⟨hname, hmoved⟩ := (hdone.assetAt_iff hn).mp ha
        by_cases hc : d.copyAsset = true ∧ a = t
        · obtain ⟨hcopy, rfl⟩ := hc
          rw [transfer_stuck hd hcopy ha]
          refine .stuck (Nat.le_refl n) ⟨d, a, hn, hcopy, hname, rfl⟩ fun j hj hj' => ?_
          obtain rfl := Nat.le_antisymm hj' hj
          exact ⟨⟨a, hname⟩, hmoved⟩
        · obtain ⟨d', w', ht, huid, hnew, hsrc⟩ := transfer_found hd ha hc
          rw [ht]
          have hnc : ¬ CopiesTarget (some t) source w₀ args n := by
            rintro ⟨e, b, he, hcopy, hb, htb⟩
            rw [hn, Option.some_inj] at he
            have hb' := (hdone.assetAt_iff hn).mpr ⟨hb, hmoved⟩
            rw [ha, Option.some_inj] at hb'
            exact hc ⟨he ▸ hcopy, hb'.trans (Option.some.inj htb).symm⟩
          exact ((update_cases rest (hdone.succ hn ha huid hnew hsrc) hrest').map_cons d').pred
            ⟨⟨a, hname⟩, hmoved⟩ hnc

end Run

/-! ### Failed sends -/

/-- Nothing to transfer, or a null target: the loop leaves the tables alone. -/
theorem update_null (source : SpacePtr) (w : Spaces) : ∀ ds : List IpcData,
    (ds.filter IpcData.isAsset = [] → ∃ ds', updateInplaceMessage none source ds w = some (.ok (), ds', w)) ∧
    (ds.filter IpcData.isAsset ≠ [] →
      ∃ e ds', updateInplaceMessage none source ds w = some (.error e, ds', w))
  | [] => ⟨fun _ => ⟨[], rfl⟩, fun h => absurd rfl h⟩
  | d :: ds => by
    unfold updateInplaceMessage
    cases hd : d.isAsset with
    | false =>
      rw [List.filter_cons_of_neg (by simp [hd]), transfer_of_not_asset hd]
      obtain ⟨h1, h2⟩ := update_null source w ds
      constructor
      · intro h
        obtain ⟨ds', h'⟩ := h1 h
        exact ⟨d :: ds', by simp only [h', Option.map_some]⟩
      · intro h
        obtain ⟨e, ds', h'⟩ := h2 h
        exact ⟨e, d :: ds', by simp only [h', Option.map_some]⟩
    | true =>
      rw [List.filter_cons_of_pos hd]
      obtain ⟨e, he⟩ := transfer_null source w hd
      rw [he]
      exact ⟨nofun, fun _ => ⟨e, _, rfl⟩⟩


section Fails

variable {source : SpacePtr} {target : Option SpacePtr} {s : World}

/-- An error of the transfer, as both sends return it. -/
theorem failsCleanly_update {w : Spaces} {msg : IpcMessage} {e : String} :
    FailsCleanly source target s
      (some { result := .error e, world := { s with spaces := w }, msg, locked := false }) ↔
      (w source).assets = (s.spaces source).assets ∧
        ∀ t, target = some t → (w t).assets = (s.spaces t).assets := by
  constructor
  · intro h
    obtain ⟨h1, h2, -, -⟩ := h _ e rfl rfl
    exact ⟨h1, h2⟩
  · rintro ⟨h1, h2⟩ r e' hr -
    rw [← Option.some.inj hr]
    exact ⟨h1, h2, rfl, rfl⟩

theorem failsCleanly_none : FailsCleanly source target s none := nofun

theorem failsCleanly_ok {r : Sent} (h : r.result = .ok ()) :
    FailsCleanly source target s (some r) := by
  intro r' e hr he
  rw [← Option.some.inj hr, h] at he
  cases he

theorem not_failsCleanly_locked {r : Sent} {e : String} (h : r.result = .error e)
    (hl : r.locked = true) : ¬ FailsCleanly source target s (some r) := by
  intro hf
  have := (hf r e rfl h).2.2.2
  rw [hl] at this
  cases this

/-- The transfer stops without an effect exactly if the first asset fails. -/
theorem Done.unchanged_iff {t : SpacePtr} {w₀ w : Spaces} {args : List IpcData} {m : ℕ}
    (hd : Done t source w₀ args m w) :
    ((w source).assets = (w₀ source).assets ∧
      ∀ t', some t = some t' → (w t').assets = (w₀ t').assets) ↔ m = 0 := by
  constructor
  · rintro ⟨-, ht⟩
    by_contra hm
    refine hd.last (Nat.pos_of_ne_zero hm) ?_
    rw [AssetTable.assetAt_eq_none, ht t rfl, ← AssetTable.assetAt_eq_none]
    exact AssetTable.assetAt_of_lt (by omega)
  · intro hm
    rw [hd.zero hm]
    exact ⟨rfl, fun _ _ => rfl⟩

/-- How the transfer of a message ends, for both sends: without an effect
(`clean`), complete (`ok`), or with an effect and an error (`dirty`). -/
theorem send_cases (source : SpacePtr) (target : Option SpacePtr) (msg : IpcMessage) (w₀ : Spaces) :
    let out := updateInplaceMessage target source msg.arguments.data w₀
    (out = none ∧ Stuck target source w₀ msg.assets) ∨
    (∃ ds w, out = some (.ok (), ds, w) ∧ ¬ FirstFails target source w₀ msg.assets ∧
      AllAvailable target source w₀ msg.assets ∧ ¬ Stuck target source w₀ msg.assets) ∨
    ∃ e ds w, out = some (.error e, ds, w) ∧ ¬ AllAvailable target source w₀ msg.assets ∧
      ¬ Stuck target source w₀ msg.assets ∧
      (((w source).assets = (w₀ source).assets ∧
        ∀ t, target = some t → (w t).assets = (w₀ t).assets) ↔
        FirstFails target source w₀ msg.assets) := by
  dsimp only
  rcases target with _ | t
  · have hstuck : ¬ Stuck none source w₀ msg.assets := by
      rintro ⟨i, ⟨d, a, -, -, -, hnone⟩, -⟩
      cases hnone
    obtain ⟨hnil, hcons⟩ := update_null source w₀ msg.arguments.data
    by_cases h : msg.assets = []
    · obtain ⟨ds, hds⟩ := hnil h
      refine .inr (.inl ⟨ds, w₀, hds, fun hf => hf.1 h, ⟨.inl h, fun i hi => ?_⟩, hstuck⟩)
      rw [h] at hi
      cases hi
    · obtain ⟨e, ds, hds⟩ := hcons h
      refine .inr (.inr ⟨e, ds, w₀, hds, fun ha => ?_, hstuck, fun _ => ⟨h, .inl rfl⟩, fun _ => ?_⟩)
      · exact ha.1.elim h fun hne => hne rfl
      · exact ⟨rfl, fun _ _ => rfl⟩
  · have hdone : Done t source w₀ msg.assets 0 w₀ := done_zero
    have hout := update_cases msg.arguments.data hdone rfl
    generalize updateInplaceMessage (some t) source msg.arguments.data w₀ = out at hout ⊢
    cases hout with
    | all hall =>
      refine .inr (.inl ⟨_, _, rfl, ?_, ⟨.inr (Option.some_ne_none t), fun i hi => ?_⟩, ?_⟩)
      · rintro ⟨hne, hnone | hname⟩
        · cases hnone
        · exact hname (hall 0 (Nat.le_refl 0) (List.length_pos_iff.mpr hne)).1.1
      · exact (hall i (Nat.zero_le i) hi).1
      · rintro ⟨i, hc, -⟩
        have hlt : i < msg.assets.length := by
          obtain ⟨d, -, hd, -⟩ := hc
          exact (List.getElem?_eq_some_iff.mp hd).1
        exact (hall i (Nat.zero_le i) hlt).2 hc
    | stuck _ hc hav => exact .inl ⟨rfl, _, hc, fun j hj => hav j (Nat.zero_le j) hj⟩
    | @stops m e ds w _ hm hdone hna hav =>
      refine .inr (.inr ⟨e, ds, w, rfl, fun ha => hna (ha.2 m hm), ?_, ?_⟩)
      · rintro ⟨i, hc, hi⟩
        rcases Nat.lt_or_ge i m with him | hmi
        · exact (hav i (Nat.zero_le i) him).2 hc
        · exact hna (hi m hmi)
      · rw [hdone.unchanged_iff]
        constructor
        · rintro rfl
          refine ⟨List.ne_nil_of_length_pos hm, .inr fun hname => hna ⟨hname, ?_⟩⟩
          exact fun j hj => absurd hj (Nat.not_lt_zero j)
        · rintro ⟨-, hnone | hname⟩
          · cases hnone
          · by_contra hne
            exact hname (hav 0 (Nat.le_refl 0) (Nat.pos_of_ne_zero hne)).1.1

end Fails

section Sends

variable {source : SpacePtr} {callee : ℕ} {connection : Connection} {phys : Option ℕ}
  {msg : IpcMessage} {isCall : Bool} {s : World} {w : Spaces} {ds : List IpcData} {e : String}

theorem ipcSend_cases (callee : ℕ) (phys : Option ℕ) (isCall : Bool)
    (h : updateInplaceMessage connection.targetMessageSpace source
      msg.arguments.data s.spaces = some (.ok (), ds, w)) :
    ∃ r, ipcSend source callee connection phys msg isCall s = some r ∧
      (phys = none ∧ r.result = .error "failed to get phys addr of message" ∧ r.locked = true ∨
        phys ≠ none ∧ r.result = .ok ()) := by
  unfold ipcSend
  dsimp only
  split
  · rename_i hout
    rw [h] at hout
    cases hout
  · rename_i hout
    rw [h] at hout
    cases hout
  · cases phys with
    | none => exact ⟨_, rfl, .inl ⟨rfl, rfl, rfl⟩⟩
    | some p => exact ⟨_, rfl, .inr ⟨Option.some_ne_none p, rfl⟩⟩

theorem ipcSendAsync_ok (h : updateInplaceMessage connection.targetMessageSpace source
      msg.arguments.data s.spaces = some (.ok (), ds, w)) :
    ∃ r, ipcSendAsync source connection msg s = some r ∧ r.result = .ok () := by
  unfold ipcSendAsync
  dsimp only
  split
  · rename_i hout
    rw [h] at hout
    cases hout
  · rename_i hout
    rw [h] at hout
    cases hout
  · exact ⟨_, rfl, rfl⟩

theorem send_error (callee : ℕ) (phys : Option ℕ) (isCall : Bool)
    (h : updateInplaceMessage connection.targetMessageSpace source
      msg.arguments.data s.spaces = some (.error e, ds, w)) :
    ∃ m, ipcSend source callee connection phys msg isCall s = some {
        result := .error "failed to update inplace message"
        world := { s with spaces := w }
        msg := m
        locked := false } ∧
      ipcSendAsync source connection msg s = ipcSend source callee connection phys msg isCall s := by
  unfold ipcSend ipcSendAsync
  dsimp only
  split
  · rename_i hout
    rw [h] at hout
    cases hout
  · rename_i hout
    rw [h] at hout
    cases hout
    exact ⟨_, rfl, rfl⟩
  · rename_i hout
    rw [h] at hout
    cases hout

theorem send_stuck (callee : ℕ) (phys : Option ℕ) (isCall : Bool)
    (h : updateInplaceMessage connection.targetMessageSpace source
      msg.arguments.data s.spaces = none) :
    ipcSend source callee connection phys msg isCall s = none ∧
      ipcSendAsync source connection msg s = none := by
  unfold ipcSend ipcSendAsync
  dsimp only
  split
  · exact ⟨rfl, rfl⟩
  · rename_i hout
    rw [h] at hout
    cases hout
  · rename_i hout
    rw [h] at hout
    cases hout

end Sends

/-- **A failed send changes nothing** exactly if the first asset of the
message is the one that cannot be transferred, or all can be, or the call gets
stuck; and `ipc_send` also has to find the page of the message. -/
theorem send_fails_cleanly_iff (source : SpacePtr) (callee : ℕ) (connection : Connection)
    (phys : Option ℕ) (msg : IpcMessage) (isCall : Bool) (s : World) :
    (FailsCleanly source connection.targetMessageSpace s
        (ipcSend source callee connection phys msg isCall s) ↔
      FirstFails connection.targetMessageSpace source s.spaces msg.assets ∨
      (AllAvailable connection.targetMessageSpace source s.spaces msg.assets ∧ phys ≠ none) ∨
      Stuck connection.targetMessageSpace source s.spaces msg.assets) ∧
    (FailsCleanly source connection.targetMessageSpace s (ipcSendAsync source connection msg s) ↔
      FirstFails connection.targetMessageSpace source s.spaces msg.assets ∨
      AllAvailable connection.targetMessageSpace source s.spaces msg.assets ∨
      Stuck connection.targetMessageSpace source s.spaces msg.assets) := by
  rcases send_cases source connection.targetMessageSpace msg s.spaces with
    ⟨hout, hstuck⟩ | ⟨ds, w, hout, hfirst, hall, hstuck⟩ | ⟨e, ds, w, hout, hall, hstuck, hiff⟩
  · obtain ⟨h1, h2⟩ := send_stuck callee phys isCall hout
    rw [h1, h2]
    exact ⟨iff_of_true failsCleanly_none (.inr (.inr hstuck)),
      iff_of_true failsCleanly_none (.inr (.inr hstuck))⟩
  · obtain ⟨r, hr, hcases⟩ := ipcSend_cases callee phys isCall hout
    obtain ⟨r', hr', hok⟩ := ipcSendAsync_ok hout
    rw [hr, hr']
    refine ⟨?_, iff_of_true (failsCleanly_ok hok) (.inr (.inl hall))⟩
    rcases hcases with ⟨hnone, herr, hlock⟩ | ⟨hphys, hok'⟩
    · refine iff_of_false (not_failsCleanly_locked herr hlock) ?_
      rintro (hf | ⟨-, hp⟩ | hst)
      · exact hfirst hf
      · exact hp hnone
      · exact hstuck hst
    · exact iff_of_true (failsCleanly_ok hok') (.inr (.inl ⟨hall, hphys⟩))
  · obtain ⟨m, h1, h2⟩ := send_error callee phys isCall hout
    rw [h2, h1, failsCleanly_update, hiff]
    constructor
    · refine ⟨.inl, ?_⟩
      rintro (hf | ⟨ha, -⟩ | hst)
      · exact hf
      · exact absurd ha hall
      · exact absurd hst hstuck
    · refine ⟨.inl, ?_⟩
      rintro (hf | ha | hst)
      · exact hf
      · exact absurd ha hall
      · exact absurd hst hstuck

/-- Two spaces; the first has one asset, under the handle 17. -/
def oneAsset : World where
  spaces := fun p =>
    if p = 1 then (AssetTable.empty 16).insertNew { asset := some 5, handle := 0 } (Option.some_ne_none 5)
    else AssetTable.empty 16
  endpoint := {}

/-- Moves the handle 17, then one that does not exist. -/
def moveThenMissing : IpcMessage :=
  { arguments := { data := [{ isAsset := true, value := 17 }, { isAsset := true, value := 99 }, {}, {}, {}, {}] } }

/-- The asset is gone from the sender after a failed send of both kinds; and a
message without assets whose page is not found leaves the endpoint locked. -/
theorem failed_send_loses_asset :
    ¬ FailsCleanly 1 (some 2) oneAsset (ipcSendAsync 1 ⟨0, some 2⟩ moveThenMissing oneAsset) ∧
    ¬ FailsCleanly 1 (some 2) oneAsset
      (ipcSend 1 7 ⟨0, some 2⟩ (some 4096) moveThenMissing false oneAsset) ∧
    ¬ FailsCleanly 1 (some 2) oneAsset (ipcSend 1 7 ⟨0, some 2⟩ none {} false oneAsset) := by
  refine ⟨fun h => ?_, fun h => ?_, fun h => ?_⟩
  · have h17 := congrFun (h _ _ rfl rfl).1 17
    exact absurd h17 (by decide)
  · have h17 := congrFun (h _ _ rfl rfl).1 17
    exact absurd h17 (by decide)
  · exact absurd (h _ _ rfl rfl).2.2.2 (by decide)

end IpcSend
end WingOS
