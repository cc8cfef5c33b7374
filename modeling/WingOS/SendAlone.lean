/-
# A send that nobody disturbs

The accesses of `ipc_send` one by one, with no other task in between, do what
`sendFrom` does in one step: they transfer the same assets, leave the message
that `sendFrom` leaves, and queue its address (`send_alone`).

Key definitions: `Reaches`.
Key theorems: `reaches_argument`, `reaches_update`, `reaches_push`, `send_alone`.
-/
import WingOS.Delivery
import WingOS.Lib.Run

namespace WingOS
namespace Delivery

open Function (update)
open Lib (Memory byteOf number run)
open IpcSend (IpcMessage IpcData DataCount messageSize senderView Verified transfer updateInplaceMessage)

variable {frames : Frames} {s s₁ s' : DeliveryState} {t : ℕ} {c : SendCall} {given : List (ℕ × AssetPtr)}

/-- Steps of the send of `t` lead from `s` to `s'`. -/
def Reaches (frames : Frames) (t : ℕ) (s s' : DeliveryState) : Prop :=
  ∃ k, run (DeliveryState.step frames) (List.replicate k (.task t 0)) s = some s'

theorem reaches_refl (s : DeliveryState) : Reaches frames t s s := ⟨0, rfl⟩

theorem Reaches.head {p : Sender} (hp : s.sender t = some p) (hs : s.sendStep frames t 0 p = some s₁)
    (h : Reaches frames t s₁ s') : Reaches frames t s s' := by
  obtain ⟨k, hk⟩ := h
  have hstep : s.step frames (.task t 0) = some s₁ := by
    dsimp only [DeliveryState.step]
    rw [hp, Option.bind_some, hs]
  refine ⟨k + 1, ?_⟩
  rw [List.replicate_succ, Lib.run_cons, hstep]
  exact hk

theorem Reaches.trans (h : Reaches frames t s s₁) (h' : Reaches frames t s₁ s') : Reaches frames t s s' := by
  obtain ⟨k, hk⟩ := h
  induction k generalizing s with
  | zero =>
    cases hk
    exact h'
  | succ k ih =>
    obtain ⟨s₂, hs₂, hrest⟩ := Lib.run_cons_some hk
    obtain ⟨p, hp, hstep⟩ := Option.bind_eq_some_iff.mp hs₂
    exact (ih hrest).head hp hstep

/-- The send stands at `point`, and the endpoints are as in `s`. -/
structure Stands (s : DeliveryState) (t : ℕ) (c : SendCall) (point : SendPoint) (s' : DeliveryState) : Prop where
  sender : ∃ given, s'.sender t = some ⟨c, point, given⟩
  endpoint : s'.endpoint = s.endpoint
  locked : s'.locked = s.locked

theorem Stands.trans {point point' : SendPoint} (h : Stands s t c point s₁) (h' : Stands s₁ t c point' s') :
    Stands s t c point' s' :=
  ⟨h'.sender, h'.endpoint.trans h.endpoint, h'.locked.trans h.locked⟩

/-- What the bytes of a message say of its argument `i`. -/
theorem stored_argument (hv : Verified frames c.root c.msg) {mem : Memory} {i : Fin DataCount} {handle : ℕ} :
    IpcData.read (c.message frames (c.stored frames mem (.store i handle))) (16 * i) =
      { IpcData.read (c.message frames mem) (16 * i) with value := handle % 2 ^ 64 } := by
  have hi : (i : ℕ) < 6 := i.isLt
  have hsize : messageSize = 224 := rfl
  have hflags : c.message frames (c.stored frames mem (.store i handle)) (16 * i) = c.message frames mem (16 * i) :=
    (message_store hv (by omega) _ (by omega)).trans (if_neg (by omega))
  have hvalue : number (c.message frames (c.stored frames mem (.store i handle))) (16 * (i : ℕ) + 8) 8 =
      handle % 256 ^ 8 := Lib.number_of_bytes fun k hk => by
    refine (message_store hv (by omega) _ (by omega)).trans ?_
    rw [if_pos (by omega), Nat.add_sub_cancel_left]
  rw [IpcData.read, hflags, hvalue]
  rfl

/-- A handle that is read has 64 bits. -/
theorem read_mod (b : ℕ → BitVec 8) (off : ℕ) :
    { IpcData.read b off with value := (IpcData.read b off).value % 2 ^ 64 } = IpcData.read b off := by
  have hlt := Lib.number_lt b (off + 8) 8
  have hvalue : (IpcData.read b off).value % 2 ^ 64 = (IpcData.read b off).value := by
    rw [show (2 : ℕ) ^ 64 = 256 ^ 8 by decide]
    exact Nat.mod_eq_of_lt hlt
  rw [hvalue]

section Argument

variable {i : Fin DataCount}

theorem sendStep_test_asset (hasset : (IpcData.read (c.message frames s.mem) (16 * i)).isAsset = true) :
    s.sendStep frames t 0 ⟨c, .test i, given⟩ = some (s.goTo t ⟨c, .test i, given⟩ (.find i)) := by
  unfold DeliveryState.sendStep
  dsimp only
  rw [dif_pos i.isLt, if_pos hasset]

theorem sendStep_test_data (hasset : (IpcData.read (c.message frames s.mem) (16 * i)).isAsset = false) :
    s.sendStep frames t 0 ⟨c, .test i, given⟩ = some (s.goTo t ⟨c, .test i, given⟩ (.test (i + 1))) := by
  unfold DeliveryState.sendStep
  dsimp only
  rw [dif_pos i.isLt, hasset, if_neg Bool.false_ne_true]

theorem sendStep_find {r : AssetRef}
    (hr : (s.spaces c.sourceSpace).assets (IpcData.read (c.message frames s.mem) (16 * i)).value = some r) :
    s.sendStep frames t 0 ⟨c, .find i, given⟩ = some (s.goTo t ⟨c, .find i, given⟩ (.transfer i r)) := by
  unfold DeliveryState.sendStep AssetTable.byHandle
  dsimp only
  rw [hr]

theorem sendStep_transfer {r r' : AssetRef} {w' : Spaces}
    (h : (IpcData.read (c.message frames s.mem) (16 * i)).copyAsset = false ∧
        assetMove (some c.sourceSpace) c.connection.targetMessageSpace r s.spaces = .ok (r', w') ∨
      (IpcData.read (c.message frames s.mem) (16 * i)).copyAsset = true ∧
        assetCopy c.connection.targetMessageSpace r s.spaces = some (.ok (r', w'))) :
    s.sendStep frames t 0 ⟨c, .transfer i r, given⟩ =
      some (s.transferred t ⟨c, .transfer i r, given⟩ i (.ok (r', w'))) := by
  unfold DeliveryState.sendStep
  dsimp only
  rcases h with ⟨hcopy, hmove⟩ | ⟨hcopy, hcopied⟩
  · rw [hcopy, if_pos (by decide), hmove]
  · rw [hcopy, if_neg (by decide), hcopied, Option.map_some]

/-- **One argument.** A transfer that gets through is carried out. -/
theorem reaches_argument (hv : Verified frames c.root c.msg) {i : Fin DataCount}
    (hp : s.sender t = some ⟨c, .test i, given⟩) {d' : IpcData} {w' : Spaces}
    (h : transfer c.connection.targetMessageSpace c.sourceSpace (IpcData.read (c.message frames s.mem) (16 * i))
      s.spaces = some (.ok (d', w'))) :
    ∃ s', Reaches frames t s s' ∧ Stands s t c (.test (i + 1)) s' ∧ s'.spaces = w' ∧
      IpcData.read (c.message frames s'.mem) (16 * i) = { d' with value := d'.value % 2 ^ 64 } ∧
      ∀ k < messageSize, k < 16 * i ∨ 16 * i + 16 ≤ k → c.message frames s'.mem k = c.message frames s.mem k := by
  have hi : (i : ℕ) < 6 := i.isLt
  have hsize : messageSize = 224 := rfl
  rcases IpcSend.transfer_cases h with ⟨hasset, rfl, rfl⟩ | ⟨hasset, r, r', hr, rfl, hmoved⟩
  · refine ⟨s.goTo t ⟨c, .test i, given⟩ (.test (i + 1)), ?_, ⟨⟨given, Function.update_self ..⟩, rfl, rfl⟩, rfl, ?_,
      fun _ _ _ => rfl⟩
    · exact (reaches_refl _).head hp (sendStep_test_data hasset)
    · exact (read_mod _ _).symm
  · -- tested, found, transferred and stored
    let s₁ := s.goTo t ⟨c, .test i, given⟩ (.find i)
    let s₂ := s₁.goTo t ⟨c, .find i, given⟩ (.transfer i r)
    let s₃ := s₂.transferred t ⟨c, .transfer i r, given⟩ i (.ok (r', w'))
    let p₃ : Sender := ⟨c, .store i r'.handle, given ++ entryOf c.connection.targetMessageSpace w' r'.handle⟩
    let s₄ := { s₃ with mem := c.stored frames s.mem (.store i r'.handle) }.goTo t p₃ (.test (i + 1))
    have hreaches : Reaches frames t s s₄ := by
      refine Reaches.head hp (sendStep_test_asset hasset) ?_
      refine Reaches.head (p := ⟨c, .find i, given⟩) (Function.update_self ..) (sendStep_find hr) ?_
      refine Reaches.head (p := ⟨c, .transfer i r, given⟩) (Function.update_self ..)
        (sendStep_transfer hmoved) ?_
      exact Reaches.head (p := p₃) (Function.update_self ..) rfl (reaches_refl _)
    refine ⟨s₄, hreaches, ⟨⟨_, Function.update_self ..⟩, rfl, rfl⟩, rfl, stored_argument hv, fun k hk hout => ?_⟩
    exact (message_store hv (by omega) _ hk).trans (if_neg (by omega))

end Argument

/-- The `n` arguments from `i` on. -/
def argumentsFrom (b : ℕ → BitVec 8) (i n : ℕ) : List IpcData :=
  (List.range' i n).map fun j => IpcData.read b (16 * j)

theorem argumentsFrom_succ (b : ℕ → BitVec 8) (i n : ℕ) :
    argumentsFrom b i (n + 1) = IpcData.read b (16 * i) :: argumentsFrom b (i + 1) n := by
  rw [argumentsFrom, List.range'_succ, List.map_cons]
  rfl

theorem argumentsFrom_congr {b b' : ℕ → BitVec 8} {i n : ℕ} (h : ∀ k < 16 * (i + n), 16 * i ≤ k → b k = b' k) :
    argumentsFrom b i n = argumentsFrom b' i n := by
  refine List.map_congr_left fun j hj => read_congr fun k hk => h _ ?_ ?_
  all_goals
    have hmem := List.mem_range'_1.mp hj
    omega

/-- **All arguments.** If `update_inplace_message` gets through, the send gets
to the endpoint's lock with the arguments that it leaves. -/
theorem reaches_update (hv : Verified frames c.root c.msg) : ∀ (n i : ℕ) {s : DeliveryState}
    {given : List (ℕ × AssetPtr)} {ds : List IpcData} {w : Spaces}, i + n = DataCount →
    s.sender t = some ⟨c, .test i, given⟩ →
    updateInplaceMessage c.connection.targetMessageSpace c.sourceSpace
      (argumentsFrom (c.message frames s.mem) i n) s.spaces = some (.ok (), ds, w) →
    ∃ s', Reaches frames t s s' ∧ Stands s t c .lock s' ∧ s'.spaces = w ∧
      argumentsFrom (c.message frames s'.mem) i n = ds.map (fun d => { d with value := d.value % 2 ^ 64 }) ∧
      ∀ k < messageSize, k < 16 * i ∨ 96 ≤ k → c.message frames s'.mem k = c.message frames s.mem k
  | 0, i, s, given, ds, w, hi, hp, h => by
    cases h
    have hlast : s.sendStep frames t 0 ⟨c, .test i, given⟩ = some (s.goTo t ⟨c, .test i, given⟩ .lock) := by
      unfold DeliveryState.sendStep
      dsimp only
      rw [dif_neg (by omega)]
    exact ⟨_, (reaches_refl _).head hp hlast, ⟨⟨given, Function.update_self ..⟩, rfl, rfl⟩, rfl, rfl, fun _ _ _ => rfl⟩
  | n + 1, i, s, given, ds, w, hi, hp, h => by
    have hcount : DataCount = 6 := rfl
    have hsize : messageSize = 224 := rfl
    rw [argumentsFrom_succ] at h
    unfold updateInplaceMessage at h
    split at h
    · cases h
    · cases h
    · rename_i d₁ w₁ htransfer
      obtain ⟨⟨res, ds₁, w₂⟩, hrest, heq⟩ := Option.map_eq_some_iff.mp h
      cases heq
      obtain ⟨s₁, hreaches, hstands, hspaces, hread, hsame⟩ :=
        reaches_argument hv (i := ⟨i, by omega⟩) hp htransfer
      replace hread : IpcData.read (c.message frames s₁.mem) (16 * i) = { d₁ with value := d₁.value % 2 ^ 64 } := hread
      replace hsame : ∀ k < messageSize, k < 16 * i ∨ 16 * i + 16 ≤ k →
          c.message frames s₁.mem k = c.message frames s.mem k := hsame
      obtain ⟨given₁, hp₁⟩ := hstands.sender
      have hlater : argumentsFrom (c.message frames s₁.mem) (i + 1) n =
          argumentsFrom (c.message frames s.mem) (i + 1) n :=
        argumentsFrom_congr fun k hk hle => hsame k (by omega) (.inr (by omega))
      obtain ⟨s', hreaches', hstands', hspaces', hread', hsame'⟩ :=
        reaches_update hv n (i + 1) (by omega) hp₁ (by rw [hlater, hspaces]; exact hrest)
      refine ⟨s', hreaches.trans hreaches', hstands.trans hstands', hspaces', ?_, fun k hk hout => ?_⟩
      · have hhead : IpcData.read (c.message frames s'.mem) (16 * i) = IpcData.read (c.message frames s₁.mem) (16 * i) :=
          read_congr fun k hk => hsame' _ (by omega) (.inl (by omega))
        rw [argumentsFrom_succ, hread', hhead, hread, List.map_cons]
      · rw [hsame' k hk (by omega)]
        exact hsame k hk (by omega)

theorem messageAt_data (c : SendCall) (mem : Memory) :
    (IpcSend.messageAt frames c.root c.msg mem).arguments.data = argumentsFrom (c.message frames mem) 0 DataCount := by
  rw [argumentsFrom, ← List.range_eq_range']
  rfl

/-- **The end of a send.** Once the lock is free, the message is queued. -/
theorem reaches_push {phys : ℕ} (hlocked : s.locked c.endpoint = false) {isCall : Bool} (hkind : c.kind = .sync isCall)
    (hphys : physicalAddr frames c.msg 4 c.root = .ok phys) (hp : s.sender t = some ⟨c, .lock, given⟩) :
    ∃ s', Reaches frames t s s' ∧ s'.sender t = some ⟨c, .wait, given⟩ ∧ s'.mem = s.mem ∧ s'.spaces = s.spaces ∧
      s'.locked = s.locked ∧ s'.endpoint = update s.endpoint c.endpoint ((s.endpoint c.endpoint).send
        { origin := { connection := c.connection, given }, kernelMemMsg := phys } t isCall) := by
  let s₁ := { s with locked := update s.locked c.endpoint true }.goTo t ⟨c, .lock, given⟩ (.push isCall)
  let msg : QueuedMsg := { origin := { connection := c.connection, given }, kernelMemMsg := phys }
  let s₂ := (s₁.queue c.endpoint ((s₁.endpoint c.endpoint).send msg t isCall)).goTo t ⟨c, .push isCall, given⟩ .wait
  have hlock : s.sendStep frames t 0 ⟨c, .lock, given⟩ = some s₁ := by
    unfold DeliveryState.sendStep
    dsimp only
    rw [hlocked, hkind, if_neg Bool.false_ne_true]
  have hpush : s₁.sendStep frames t 0 ⟨c, .push isCall, given⟩ = some s₂ := by
    unfold DeliveryState.sendStep
    dsimp only
    rw [hphys]
    rfl
  refine ⟨s₂, Reaches.head hp hlock ?_, Function.update_self .., rfl, rfl, ?_, rfl⟩
  · exact Reaches.head (Function.update_self ..) hpush (reaches_refl _)
  · show update (update s.locked c.endpoint true) c.endpoint false = s.locked
    rw [Function.update_idem, ← hlocked]
    exact Function.update_eq_self c.endpoint s.locked

/-- A message in memory whose arguments and port were stored, and the rest left. -/
theorem arrives_of_kept {mem mem' : Memory} {m : IpcMessage} (hmax : m.len ≤ IpcSend.MAX_IPC_BUFFER_SIZE)
    (hdata : argumentsFrom (c.message frames mem') 0 DataCount =
      m.arguments.data.map fun d => { d with value := d.value % 2 ^ 64 })
    (hport : ∀ k < 8, c.message frames mem' (96 + k) = byteOf m.port k)
    (hlen : m.len = (IpcSend.messageAt frames c.root c.msg mem).len)
    (hbuffer : m.buffer = (IpcSend.messageAt frames c.root c.msg mem).buffer)
    (hkept : ∀ k < messageSize, 104 ≤ k → c.message frames mem' k = c.message frames mem k) :
    IpcSend.Arrives (IpcSend.messageAt frames c.root c.msg mem') m := by
  have hsize : messageSize = 224 := rfl
  have hcapacity : IpcSend.MAX_IPC_BUFFER_SIZE = 112 := rfl
  refine ⟨(messageAt_data c mem').trans hdata, Lib.number_of_bytes hport, ?_, fun k hk => ?_⟩
  · rw [hlen]
    exact Lib.number_congr fun k hk => hkept _ (by omega) (by omega)
  · rw [hbuffer]
    show (c.message frames mem' (112 + k)).toNat = (c.message frames mem (112 + k)).toNat % 256
    rw [hkept _ (by omega) (by omega)]
    exact (Nat.mod_eq_of_lt (BitVec.isLt _)).symm

/-- **A send on its own.** Where `sendFrom` succeeds, the single steps queue
the message that it queues, and leave the same tables. -/
theorem send_alone (hsender : s.sender t = none) (hv : Verified frames c.root c.msg)
    (hlocked : s.locked c.endpoint = false) {isCall : Bool} (hkind : c.kind = .sync isCall)
    {q : Ipc.Endpoint IpcMessage} {sent : IpcSend.Sent} {mem' : Memory} {phys : ℕ}
    (hlen : (IpcSend.messageAt frames c.root c.msg s.mem).len ≤ IpcSend.MAX_IPC_BUFFER_SIZE)
    (h : IpcSend.sendFrom frames c.root c.msg c.sourceSpace t c.connection isCall s.mem
      { spaces := s.spaces, endpoint := q } = some (sent, mem', phys)) (hok : sent.result = .ok ()) :
    ∃ s₁ s' given, s.step frames (.send t c) = some s₁ ∧ Reaches frames t s₁ s' ∧
      s'.sender t = some ⟨c, .wait, given⟩ ∧ s'.spaces = sent.world.spaces ∧ s'.locked = s.locked ∧
      s'.endpoint = update s.endpoint c.endpoint ((s.endpoint c.endpoint).send
        { origin := { connection := c.connection, given }, kernelMemMsg := phys } t isCall) ∧
      IpcSend.Arrives (IpcSend.messageAt frames c.root c.msg s'.mem) sent.msg := by
  have hsize : messageSize = 224 := rfl
  -- what `sendFrom` has done
  obtain ⟨sent', hsend, heq⟩ := Option.map_eq_some_iff.mp h
  cases heq
  unfold IpcSend.ipcSend at hsend
  dsimp only at hsend
  split at hsend
  · cases hsend
  · cases hsend
    cases hok
  rename_i ds w hupdate
  cases hphys : physicalAddr frames c.msg 4 c.root with
  | error e =>
    rw [hphys] at hsend
    cases hsend
    cases hok
  | ok phys =>
    rw [hphys] at hsend
    cases hsend
    rw [messageAt_data] at hupdate
    -- the port
    let s₁ := s.goTo t { call := c } .port
    let s₂ := { s₁ with mem := c.stored frames s.mem .port }.goTo t { call := c } (.test 0)
    have hport : ∀ k < messageSize, c.message frames s₂.mem k =
        if 96 ≤ k ∧ k < 96 + 8 then byteOf c.connection.port (k - 96) else c.message frames s.mem k :=
      fun k hk => message_store hv (by omega) _ hk
    have hargs : argumentsFrom (c.message frames s₂.mem) 0 DataCount =
        argumentsFrom (c.message frames s.mem) 0 DataCount := by
      have hcount : DataCount = 6 := rfl
      exact argumentsFrom_congr fun k hk _ => (hport k (by omega)).trans (if_neg (by omega))
    obtain ⟨s₃, hreaches, hstands, hspaces, hread, hsame⟩ := reaches_update (s := s₂) hv DataCount 0 rfl
      (Function.update_self ..) (hargs ▸ hupdate)
    obtain ⟨given, hp₃⟩ := hstands.sender
    -- the lock and the queue
    obtain ⟨s', hpushes, hwaits, hmem, hspaces', hlocked', hendpoint⟩ :=
      reaches_push (by rw [hstands.locked]; exact hlocked) hkind hphys hp₃
    have hall : Reaches frames t s₁ s' := Reaches.head (Function.update_self ..) rfl (hreaches.trans hpushes)
    refine ⟨s₁, s', given, ?_, hall, hwaits, hspaces'.trans hspaces, hlocked'.trans hstands.locked, ?_, ?_⟩
    · dsimp only [DeliveryState.step]
      rw [hsender, if_pos hv]
    · rw [hendpoint, hstands.endpoint]
      rfl
    · rw [hmem]
      refine arrives_of_kept hlen hread (fun k hk => ?_) rfl rfl fun k hk hle => ?_
      · refine (hsame (96 + k) (by omega) (.inr (by omega))).trans ((hport _ (by omega)).trans ?_)
        rw [if_pos (by omega), Nat.add_sub_cancel_left]
      · exact (hsame k hk (.inr (by omega))).trans ((hport k hk).trans (if_neg (by omega)))

end Delivery
end WingOS
