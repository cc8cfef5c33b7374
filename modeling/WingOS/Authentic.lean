/-
# Authentic messages

A receiver may trust the port of a message and the handles in it, as the kernel
has written both (`Authentic`). It has written them into the memory of the
sender, though, and reads them there again, when the message is received or,
for `ipc_send_async`, when it is queued. Another task of the sender can write
them in between: so it sends in the name of another connection, or gives the
receiver a handle of an asset that nobody has sent (`delivered_forged`).

A run delivers authentic messages only, as long as no write changes the port or
a handle of a message from the time the kernel has dealt with it until it is
copied (`Undisturbed`). This holds for the writes of other tasks, and for those
of the kernel where two messages share memory. The arguments and the port of a
message of `ipc_send` must be in one piece, too, or the receiver copies other
bytes.

That a handle was given out for an asset is never undone. The entry itself may
be gone when the message comes: a task of the receiver may move it away.

Key definitions: `Authentic`, `Undisturbed`, `Genuine`, `Inv`.
Key theorems: `inv_sendStep`, `inv_step`, `delivered_authentic`.
-/
import WingOS.Delivery
import WingOS.Lib.Run

namespace WingOS
namespace Delivery

open Function (update)
open Lib (Memory byteOf number memcpy run Meets)
open Wakeup (Kind)
open IpcSend (IpcMessage IpcData DataCount messageSize senderView kernelView Verified OnePiece)

/-- The handle was given out for the asset, and stands for no other. -/
def Gave (t : AssetTable) (g : ℕ × AssetPtr) : Prop :=
  g.1 ≤ t.allocUid ∧ ∀ a, t.assetAt g.1 = some a → a = g.2

/-- `v` is a handle that the transfers of the message have been given. -/
def Origin.Names (o : Origin) (w : Spaces) (v : ℕ) : Prop :=
  ∃ g ∈ o.given, v = g.1 % 2 ^ 64 ∧ ∃ t, o.connection.targetMessageSpace = some t ∧ Gave (w t) g

/-- The message has the port of its connection, and its assets are those that
were moved or copied for it into the table of the receiver. -/
structure Authentic (w : Spaces) (m : IpcMessage) (o : Origin) : Prop where
  port : m.port = o.connection.port % 2 ^ 64
  assets : ∀ d ∈ m.arguments.data, d.isAsset = true → o.Names w d.value

/-- The bytes of a message whose port is written and whose first `n` arguments
are dealt with. -/
structure Genuine (w : Spaces) (o : Origin) (b : ℕ → BitVec 8) (n : ℕ) : Prop where
  port : number b 96 8 = o.connection.port % 2 ^ 64
  assets : ∀ i < n, (IpcData.read b (16 * i)).isAsset = true → o.Names w (IpcData.read b (16 * i)).value

/-- The port, and the assets among the first `n` arguments, are as before. -/
structure Keeps (n : ℕ) (b b' : ℕ → BitVec 8) : Prop where
  port : number b' 96 8 = number b 96 8
  assets : ∀ i < n, (IpcData.read b' (16 * i)).isAsset = true →
    (IpcData.read b (16 * i)).isAsset = true ∧ (IpcData.read b' (16 * i)).value = (IpcData.read b (16 * i)).value

/-- What the target of a copy will hold, if nothing is written any more. -/
def Copying.seen (c : Copying) (b : ℕ → BitVec 8) : ℕ → BitVec 8 := fun k =>
  if k < c.next then c.target k else b k

/-- The arguments that a send has dealt with, once it has written the port. -/
def SendPoint.checked : SendPoint → Option ℕ
  | .port | .clear | .wait => none
  | .test i => some i
  | .find i | .transfer i _ | .store i _ => some i
  | .lock | .push _ | .copy _ => some DataCount

def Taking.seen (k : Taking) (mem : Memory) : ℕ → BitVec 8 :=
  k.copying.seen fun j => mem (kernelView k.entry.kernelMemMsg.kernelMemMsg j)

section Frames

variable (frames : Frames)

/-- The kernel sees the arguments and the port where the sender does. -/
def SendCall.FieldsTogether (c : SendCall) : Prop :=
  ∀ phys, physicalAddr frames c.msg 4 c.root = .ok phys →
    ∀ k < 104, senderView frames c.root c.msg k = kernelView phys k

def Sender.seen (p : Sender) (mem : Memory) : ℕ → BitVec 8 :=
  match p.point with
  | .copy c => c.seen (p.call.message frames mem)
  | _ => p.call.message frames mem

namespace DeliveryState

/-- No message of another sender than `writer`, in a queue or in a receive has
a port or a handle that is another one in the memory `mem'`. -/
structure Spares (s : DeliveryState) (writer : Option ℕ) (mem' : Memory) : Prop where
  sender : ∀ t p n, writer ≠ some t → s.sender t = some p → p.point.checked = some n →
    Keeps n (p.seen frames s.mem) (p.seen frames mem')
  queue : ∀ e l, (s.endpoint e).syncQueue.Repr l → ∀ x ∈ l,
    Keeps DataCount (fun k => s.mem (kernelView x.kernelMemMsg.kernelMemMsg k))
      fun k => mem' (kernelView x.kernelMemMsg.kernelMemMsg k)
  taking : ∀ e k, s.taking e = some k → Keeps DataCount (k.seen s.mem) (k.seen mem')

/-- No write changes what the kernel has written, and a message that is to wait
has its fields in one piece. -/
def Undisturbed (s : DeliveryState) : DeliveryAction → Prop
  | .write x b => s.Spares frames none (update s.mem x b)
  | .send _ c => c.kind ≠ .async → c.FieldsTogether frames
  | .task t _ => ∀ p, s.sender t = some p → s.Spares frames (some t) (p.call.stored frames s.mem p.point)
  | _ => True

/-- Nothing has been sent yet. -/
structure Start (s : DeliveryState) : Prop where
  endpoint : ∀ e, s.endpoint e = {}
  sender : ∀ t, s.sender t = none
  taking : ∀ e, s.taking e = none
  delivered : s.delivered = []

end DeliveryState

end Frames

/-! ### Handles that were given out -/

section Tables

variable {t : AssetTable} {g : ℕ × AssetPtr} {r r' : AssetRef} {w w' : Spaces} {source target : Option SpacePtr}

theorem Gave.insertNew (h : Gave t g) (hr : r.asset ≠ none) : Gave (t.insertNew r hr) g := by
  refine ⟨Nat.le_succ_of_le h.1, fun a ha => h.2 a ?_⟩
  have hle := h.1
  rw [AssetTable.assetAt_insertNew, if_neg (by omega)] at ha
  exact ha

theorem Gave.moveOut (h : Gave t g) (k : ℕ) : Gave (t.moveOut k) g := by
  refine ⟨h.1, fun a ha => h.2 a ?_⟩
  rw [AssetTable.assetAt_moveOut] at ha
  split at ha
  · cases ha
  · exact ha

theorem gave_of_assetAt {h : ℕ} {a : AssetPtr} (ha : t.assetAt h = some a) : Gave t (h, a) := by
  refine ⟨?_, fun b hb => Option.some.inj (hb.symm.trans ha)⟩
  by_contra hlt
  rw [AssetTable.assetAt_of_lt (Nat.lt_of_not_le hlt)] at ha
  cases ha

theorem assetAt_new (hr : r.asset ≠ none) :
    (t.insertNew r hr).assetAt (t.insertNew r hr).allocUid = r.asset := by
  rw [AssetTable.assetAt_insertNew, if_pos (AssetTable.allocUid_insertNew hr)]

/-- What was given out in `w` was given out in `w'`. -/
def Later (w w' : Spaces) : Prop := ∀ t g, Gave (w t) g → Gave (w' t) g

theorem later_refl (w : Spaces) : Later w w := fun _ _ h => h

theorem Later.trans {w₁ : Spaces} (h : Later w w₁) (h' : Later w₁ w') : Later w w' := fun t g hg => h' t g (h t g hg)

/-- One table changes. -/
theorem later_update {p : SpacePtr} {t' : AssetTable} (h : ∀ g, Gave (w p) g → Gave t' g) :
    Later w (update w p t') := by
  intro q g hg
  by_cases hq : q = p
  · subst hq
    rw [Function.update_self]
    exact h g hg
  · rw [Function.update_of_ne hq]
    exact hg

theorem later_assetMove (h : assetMove source target r w = .ok (r', w')) :
    Later w w' ∧ ∃ t a, target = some t ∧ (w' t).assetAt r'.handle = some a := by
  unfold assetMove at h
  split at h
  · rename_i src dst
    split at h
    · cases h
    · split at h
      · cases h
      · rename_i v hv
        obtain ⟨a, ha⟩ := Option.ne_none_iff_exists'.mp (AssetTable.asset_ne _ hv)
        cases h
        refine ⟨Later.trans (later_update fun g hg => hg.moveOut r.handle)
          (later_update fun g hg => hg.insertNew _), dst, a, rfl, ?_⟩
        rw [Function.update_self]
        exact (assetAt_new _).trans ha
  · cases h

theorem later_assetCopy (h : assetCopy target r w = some (.ok (r', w'))) :
    Later w w' ∧ ∃ t a, target = some t ∧ (w' t).assetAt r'.handle = some a := by
  unfold assetCopy at h
  split at h
  · cases h
  · rename_i dst
    split at h
    · cases h
    · rename_i hne
      obtain ⟨a, ha⟩ := Option.ne_none_iff_exists'.mp hne
      split at h
      · cases h
      · cases h
        refine ⟨later_update fun g hg => hg.insertNew _, dst, a, rfl, ?_⟩
        rw [Function.update_self]
        exact (assetAt_new _).trans ha

theorem later_createReturnTask (space : SpacePtr) (retTask : AssetPtr) :
    Later w (DeliveryState.createReturnTask w space retTask) := later_update fun _ hg => hg.insertNew _

theorem mem_entryOf {target : Option SpacePtr} {h : ℕ} {t : SpacePtr} {a : AssetPtr} (ht : target = some t)
    (ha : (w t).assetAt h = some a) : (h, a) ∈ entryOf target w h := by
  unfold entryOf
  rw [ht, Option.bind_some, ha]
  exact List.mem_singleton_self _

end Tables

/-! ### What counts of a message -/

section Bytes

variable {w w' : Spaces} {o o' : Origin} {b b' : ℕ → BitVec 8} {n m : ℕ} {c c' : Copying}

theorem Origin.Names.mono {v : ℕ} (h : o.Names w v) (hlater : Later w w') (hconnection : o'.connection = o.connection)
    (hgiven : ∀ g ∈ o.given, g ∈ o'.given) : o'.Names w' v := by
  obtain ⟨g, hg, hv, t, ht, hgave⟩ := h
  exact ⟨g, hgiven g hg, hv, t, hconnection ▸ ht, hlater t g hgave⟩

/-- What a step keeps of the bytes, of the tables and of the origin. -/
theorem Genuine.mono (h : Genuine w o b n) (hlater : Later w w') (hkeeps : Keeps n b b')
    (hconnection : o'.connection = o.connection) (hgiven : ∀ g ∈ o.given, g ∈ o'.given) : Genuine w' o' b' n := by
  refine ⟨?_, fun i hi hasset => ?_⟩
  · rw [hkeeps.port, hconnection]
    exact h.port
  · obtain ⟨hold, hvalue⟩ := hkeeps.assets i hi hasset
    rw [hvalue]
    exact (h.assets i hi hold).mono hlater hconnection hgiven

theorem keeps_refl (n : ℕ) (b : ℕ → BitVec 8) : Keeps n b b := ⟨rfl, fun _ _ hasset => ⟨hasset, rfl⟩⟩

theorem keeps_of_eq (h : ∀ k < 104, b k = b' k) : Keeps DataCount b b' := by
  have hcount : DataCount = 6 := rfl
  refine ⟨Lib.number_congr fun k hk => (h (96 + k) (by omega)).symm, fun i hi hasset => ?_⟩
  have hread : IpcData.read b (16 * i) = IpcData.read b' (16 * i) := read_congr fun k hk => h _ (by omega)
  exact ⟨hread ▸ hasset, by rw [hread]⟩

theorem Genuine.later (h : Genuine w o b n) (hlater : Later w w') : Genuine w' o b n :=
  h.mono hlater (keeps_refl n b) rfl fun _ hg => hg

theorem Genuine.copied (h : Genuine w o b DataCount) (heq : ∀ k < 104, b k = b' k) :
    Genuine w o b' DataCount := h.mono (later_refl w) (keeps_of_eq heq) rfl fun _ hg => hg

theorem Authentic.later {m : IpcMessage} (h : Authentic w m o) (hlater : Later w w') : Authentic w' m o :=
  ⟨h.port, fun d hd hasset => (h.assets d hd hasset).mono hlater rfl fun _ hg => hg⟩

/-- A message with these bytes is authentic. -/
theorem authentic_of_genuine (h : Genuine w o b DataCount) {m : IpcMessage}
    (hport : m.port = (IpcMessage.read b).port) (harguments : m.arguments = (IpcMessage.read b).arguments) :
    Authentic w m o := by
  refine ⟨hport.trans h.port, fun d hd hasset => ?_⟩
  rw [harguments] at hd
  obtain ⟨i, hi, rfl⟩ := List.mem_map.mp hd
  exact h.assets i (List.mem_range.mp hi) hasset

theorem seen_take (c : Copying) (b : ℕ → BitVec 8) (n : ℕ) : (c.take b n).seen b = c.seen b := by
  funext k
  show (if k < c.next + n then memcpy c.target c.next b c.next n k else b k) = if k < c.next then c.target k else b k
  unfold memcpy
  by_cases hold : k < c.next
  · rw [if_pos (by omega), if_neg (by omega), if_pos hold]
  · rw [if_neg hold]
    split
    · rw [if_pos (by omega), show c.next + (k - c.next) = k by omega]
    · rfl

/-- A step of the copy changes nothing in what the target will hold. -/
theorem seen_step (h : c.step b n = some c') : c'.seen b = c.seen b := by
  unfold Copying.step at h
  split at h
  · cases h
    exact seen_take c b _
  · split at h
    · cases h
      exact seen_take c b _
    · cases h

/-- At its end the copy has all the fields. -/
theorem seen_end (h : c.step b n = none) : ∀ k < 104, c.seen b k = c.target k := by
  intro k hk
  have hnext : bufferOffset ≤ c.next := by
    by_contra hlt
    rw [Copying.step, if_pos (Nat.lt_of_not_le hlt)] at h
    cases h
  exact if_pos (Nat.lt_of_lt_of_le (Nat.lt_trans hk (by decide)) hnext)

theorem seen_start (target b : ℕ → BitVec 8) : Copying.seen { target } b = b := by
  funext k
  exact if_neg (Nat.not_lt_zero k)

end Bytes

/-! ### Stores into the message -/

section Stores

variable {frames : Frames} {c : SendCall} {mem : Memory} {w : Spaces} {o : Origin} {n : ℕ}

/-- The port is written, and no argument is dealt with. -/
theorem genuine_port (hv : Verified frames c.root c.msg) (ho : o.connection = c.connection) :
    Genuine w o (c.message frames (c.stored frames mem .port)) 0 := by
  refine ⟨?_, fun i hi => absurd hi (Nat.not_lt_zero i)⟩
  rw [ho]
  refine Lib.number_of_bytes fun k hk => ?_
  show c.message frames (Lib.store _ _ _ _ _) (96 + k) = _
  have hsize : messageSize = 224 := rfl
  rw [message_store hv (by omega) _ (by omega), if_pos (by omega), Nat.add_sub_cancel_left]

/-- The handle of the argument `i` is written. -/
theorem genuine_store (hv : Verified frames c.root c.msg) {i : Fin DataCount} {handle : ℕ}
    (h : Genuine w o (c.message frames mem) i) (hnames : o.Names w (handle % 2 ^ 64)) :
    Genuine w o (c.message frames (c.stored frames mem (.store i handle))) (i + 1) := by
  have hi : (i : ℕ) < 6 := i.isLt
  have hsize : messageSize = 224 := rfl
  have hbyte : ∀ k < messageSize, c.message frames (c.stored frames mem (.store i handle)) k =
      if 16 * (i : ℕ) + 8 ≤ k ∧ k < 16 * (i : ℕ) + 8 + 8 then byteOf handle (k - (16 * i + 8))
      else c.message frames mem k := fun k hk => message_store hv (by omega) _ hk
  refine ⟨?_, fun j hj hasset => ?_⟩
  · rw [← h.port]
    refine Lib.number_congr fun k hk => ?_
    rw [hbyte _ (by omega), if_neg (by omega)]
  · rcases Nat.lt_succ_iff_lt_or_eq.mp hj with hlt | rfl
    · have hread : IpcData.read (c.message frames (c.stored frames mem (.store i handle))) (16 * j) =
          IpcData.read (c.message frames mem) (16 * j) := read_congr fun k hk => by
        rw [hbyte _ (by omega), if_neg (by omega)]
      rw [hread] at hasset ⊢
      exact h.assets j hlt hasset
    · have hvalue : number (c.message frames (c.stored frames mem (.store i handle))) (16 * (i : ℕ) + 8) 8 =
          handle % 256 ^ 8 := Lib.number_of_bytes fun k hk => by
        rw [hbyte _ (by omega), if_pos (by omega), Nat.add_sub_cancel_left]
      show o.Names w (number _ _ 8)
      rw [hvalue, show (256 : ℕ) ^ 8 = 2 ^ 64 by decide]
      exact hnames

end Stores

/-! ### The invariant -/

/-- A sender that has its message in one piece where it has to be, and writes
only handles it was given. -/
structure Sender.Sound (frames : Frames) (w : Spaces) (p : Sender) : Prop where
  verified : Verified frames p.call.root p.call.msg
  together : p.call.kind ≠ .async → p.call.FieldsTogether frames
  pushing : ∀ isCall, p.point = .push isCall → p.call.kind ≠ .async
  storing : ∀ i handle, p.point = .store i handle → p.origin.Names w (handle % 2 ^ 64)

/-- What the kernel reads of a queued message, now or when it was queued. -/
def QueuedGenuine (mem : Memory) (w : Spaces) : Ipc.Taken QueuedMsg → Prop
  | .sync x =>
    Genuine w x.kernelMemMsg.origin (fun k => mem (kernelView x.kernelMemMsg.kernelMemMsg k)) DataCount
  | .async x => Genuine w x.targetMsg.origin x.targetMsg.targetMsg DataCount

def Inbox (mem : Memory) (w : Spaces) (q : Ipc.Endpoint QueuedMsg) : Prop :=
  ∃ p, Ipc.Queued q p ∧ ∀ x ∈ p, QueuedGenuine mem w x

structure DeliveryState.Inv (frames : Frames) (s : DeliveryState) : Prop where
  sender : ∀ t p, s.sender t = some p → p.Sound frames s.spaces ∧
    ∀ n, p.point.checked = some n → Genuine s.spaces p.origin (p.seen frames s.mem) n
  inbox : ∀ e, Inbox s.mem s.spaces (s.endpoint e)
  taking : ∀ e k, s.taking e = some k → Genuine s.spaces k.entry.kernelMemMsg.origin (k.seen s.mem) DataCount
  delivered : ∀ x ∈ s.delivered, Authentic s.spaces x.1 x.2

section Frame

variable {frames : Frames} {s : DeliveryState} {w w' : Spaces} {mem mem' : Memory} {writer : Option ℕ}
  {q : Ipc.Endpoint QueuedMsg} {p : Sender}

theorem spares_refl (writer : Option ℕ) : s.Spares frames writer s.mem :=
  ⟨fun _ _ n _ _ _ => keeps_refl n _, fun _ _ _ _ _ => keeps_refl _ _, fun _ _ _ => keeps_refl _ _⟩

theorem Sender.Sound.later (h : p.Sound frames w) (hlater : Later w w') : p.Sound frames w' :=
  ⟨h.verified, h.together, h.pushing, fun i handle hp =>
    (h.storing i handle hp).mono hlater rfl fun _ hg => hg⟩

theorem Inbox.keep (h : Inbox mem w q) (hlater : Later w w')
    (hkeeps : ∀ l, q.syncQueue.Repr l → ∀ x ∈ l, Keeps DataCount
      (fun k => mem (kernelView x.kernelMemMsg.kernelMemMsg k))
      fun k => mem' (kernelView x.kernelMemMsg.kernelMemMsg k)) : Inbox mem' w' q := by
  obtain ⟨p, hq, hp⟩ := h
  refine ⟨p, hq, fun x hx => ?_⟩
  cases x with
  | sync x =>
    have hmem : x ∈ p.filterMap Ipc.asSync := List.mem_filterMap.mpr ⟨_, hx, rfl⟩
    exact (hp _ hx).mono hlater (hkeeps _ hq.sync x hmem) rfl fun _ hg => hg
  | async x => exact (hp _ hx).later hlater

/-- Memory and tables change, and no sender goes on. -/
theorem inv_frame (h : s.Inv frames) (hlater : Later s.spaces w') (hspares : s.Spares frames none mem') :
    DeliveryState.Inv frames { s with mem := mem', spaces := w' } where
  sender t p hp := by
    obtain ⟨hsound, hgenuine⟩ := h.sender t p hp
    refine ⟨hsound.later hlater, fun n hn => (hgenuine n hn).mono hlater ?_ rfl fun _ hg => hg⟩
    exact hspares.sender t p n (Option.some_ne_none t).symm hp hn
  inbox e := (h.inbox e).keep hlater (hspares.queue e)
  taking e k hk := (h.taking e k hk).mono hlater (hspares.taking e k hk) rfl fun _ hg => hg
  delivered x hx := (h.delivered x hx).later hlater

/-- What a step of the sender `t` leaves is sound if the sender is. -/
theorem inv_sender (h : s.Inv frames) {t : ℕ} (hlater : Later s.spaces w')
    (hspares : s.Spares frames (some t) mem') (locked : ℕ → Bool) (p' : Option Sender)
    (hp' : ∀ p, p' = some p → p.Sound frames w' ∧
      ∀ n, p.point.checked = some n → Genuine w' p.origin (p.seen frames mem') n) :
    DeliveryState.Inv frames { s with mem := mem', spaces := w', locked, sender := update s.sender t p' } where
  sender := by
    intro t' p hp
    replace hp : update s.sender t p' t' = some p := hp
    by_cases ht : t' = t
    · subst ht
      rw [Function.update_self] at hp
      exact hp' p hp
    · rw [Function.update_of_ne ht] at hp
      obtain ⟨hsound, hgenuine⟩ := h.sender t' p hp
      refine ⟨hsound.later hlater, fun n hn => (hgenuine n hn).mono hlater ?_ rfl fun _ hg => hg⟩
      exact hspares.sender t' p n (fun heq => ht (Option.some.inj heq).symm) hp hn
  inbox e := (h.inbox e).keep hlater (hspares.queue e)
  taking e k hk := (h.taking e k hk).mono hlater (hspares.taking e k hk) rfl fun _ hg => hg
  delivered x hx := (h.delivered x hx).later hlater

/-- A queue changes. -/
theorem inv_endpoint (h : s.Inv frames) (e : ℕ) (hq : Inbox s.mem s.spaces q) (locked : ℕ → Bool) :
    DeliveryState.Inv frames { s with endpoint := update s.endpoint e q, locked } where
  sender := h.sender
  inbox e' := by
    show Inbox s.mem s.spaces (update s.endpoint e q e')
    by_cases he : e' = e
    · subst he
      rw [Function.update_self]
      exact hq
    · rw [Function.update_of_ne he]
      exact h.inbox e'
  taking := h.taking
  delivered := h.delivered

/-- A receive starts, goes on or ends. -/
theorem inv_taking (h : s.Inv frames) (e : ℕ) (k : Option Taking) (locked : ℕ → Bool)
    (hk : ∀ k', k = some k' → Genuine s.spaces k'.entry.kernelMemMsg.origin (k'.seen s.mem) DataCount) :
    DeliveryState.Inv frames { s with locked, taking := update s.taking e k } where
  sender := h.sender
  inbox := h.inbox
  taking e' k' hk' := by
    replace hk' : update s.taking e k e' = some k' := hk'
    by_cases he : e' = e
    · subst he
      rw [Function.update_self] at hk'
      exact hk k' hk'
    · rw [Function.update_of_ne he] at hk'
      exact h.taking e' k' hk'
  delivered := h.delivered

/-- A message is delivered. -/
theorem inv_delivered (h : s.Inv frames) {m : IpcMessage} {o : Origin} (hm : Authentic s.spaces m o) :
    DeliveryState.Inv frames { s with delivered := s.delivered ++ [(m, o)] } where
  sender := h.sender
  inbox := h.inbox
  taking := h.taking
  delivered x hx := by
    rcases List.mem_append.mp hx with hx | hx
    · exact h.delivered x hx
    · rw [List.mem_singleton.mp hx]
      exact hm

end Frame

/-! ### One step -/

section Step

variable {frames : Frames} {s s' : DeliveryState} {t n : ℕ} {c : SendCall} {given : List (ℕ × AssetPtr)}
  {p : Sender} {point : SendPoint} {w : Spaces}

theorem Sender.Sound.goTo (h : p.Sound frames w) (hpush : ∀ isCall, point = .push isCall → p.call.kind ≠ .async)
    (hstore : ∀ i handle, point = .store i handle → p.origin.Names w (handle % 2 ^ 64)) :
    Sender.Sound frames w { p with point } := ⟨h.verified, h.together, hpush, hstore⟩

theorem Sender.Sound.goTo_plain (h : p.Sound frames w) (hpush : ∀ isCall, point ≠ .push isCall)
    (hstore : ∀ i handle, point ≠ .store i handle) : Sender.Sound frames w { p with point } :=
  h.goTo (fun isCall hp => absurd hp (hpush isCall)) fun i handle hp => absurd hp (hstore i handle)

/-- The sender goes on, and has written nothing. -/
theorem inv_goTo (h : s.Inv frames) (locked : ℕ → Bool) (hsound : Sender.Sound frames s.spaces { p with point })
    (hgenuine : ∀ n, point.checked = some n →
      Genuine s.spaces p.origin (Sender.seen frames { p with point } s.mem) n) :
    DeliveryState.Inv frames ({ s with locked }.goTo t p point) :=
  inv_sender h (later_refl _) (spares_refl _) locked (some { p with point }) fun p' hp' => by
    cases hp'
    exact ⟨hsound, hgenuine⟩

theorem inv_leave (h : s.Inv frames) : DeliveryState.Inv frames (s.leave t) :=
  inv_sender h (later_refl _) (spares_refl _) s.locked none fun p' hp' => by cases hp'

/-- An argument that is no asset, or is beyond the last one, is dealt with. -/
theorem Genuine.next {o : Origin} {b : ℕ → BitVec 8} {i : ℕ} (h : Genuine w o b i)
    (hasset : (IpcData.read b (16 * i)).isAsset = false) : Genuine w o b (i + 1) := by
  refine ⟨h.port, fun j hj hj' => ?_⟩
  rcases Nat.lt_succ_iff_lt_or_eq.mp hj with hlt | rfl
  · exact h.assets j hlt hj'
  · rw [hasset] at hj'
    cases hj'

theorem Genuine.all {o : Origin} {b : ℕ → BitVec 8} {i : ℕ} (h : Genuine w o b i) (hi : ¬ i < DataCount) :
    Genuine w o b DataCount :=
  ⟨h.port, fun j hj => h.assets j (Nat.lt_of_lt_of_le hj (Nat.le_of_not_lt hi))⟩

/-- A transfer gives the argument a handle in the table of the target. -/
theorem inv_transferred (h : s.Inv frames) (hsound : p.Sound frames s.spaces) {i : Fin DataCount}
    (hgenuine : Genuine s.spaces p.origin (p.call.message frames s.mem) i) {res : Except String (AssetRef × Spaces)}
    (hres : ∀ r w, res = .ok (r, w) → Later s.spaces w ∧
      ∃ t a, p.call.connection.targetMessageSpace = some t ∧ (w t).assetAt r.handle = some a) :
    (s.transferred t p i res).Inv frames := by
  cases res with
  | error e =>
    exact inv_goTo h s.locked (hsound.goTo_plain (by simp) (by simp)) fun n hn => by cases hn
  | ok res =>
    obtain ⟨r, w⟩ := res
    obtain ⟨hlater, q, a, hq, ha⟩ := hres r w rfl
    refine inv_sender h hlater (spares_refl _) s.locked _ fun p' hp' => ?_
    cases hp'
    have hsound' := hsound.later hlater
    refine ⟨⟨hsound'.verified, hsound'.together, fun _ hno => ?_, fun j handle hstore => ?_⟩, fun n hn => ?_⟩
    · cases hno
    · cases hstore
      exact ⟨(r.handle, a), List.mem_append_right _ (mem_entryOf hq ha), rfl, q, hq, gave_of_assetAt ha⟩
    · cases hn
      exact hgenuine.mono hlater (keeps_refl _ _) rfl fun g hg => List.mem_append_left _ hg

/-- The message is in the queue that its sender has put it in. -/
theorem inbox_send (h : s.Inv frames) (e : ℕ) (msg : QueuedMsg) (callee : ℕ) (isCall : Bool)
    (hmsg : Genuine s.spaces msg.origin (fun k => s.mem (kernelView msg.kernelMemMsg k)) DataCount) :
    Inbox s.mem s.spaces ((s.endpoint e).send msg callee isCall) := by
  obtain ⟨l, hq, hl⟩ := h.inbox e
  refine ⟨_, Ipc.queued_send hq msg callee isCall, fun x hx => ?_⟩
  rcases List.mem_append.mp hx with hx | hx
  · exact hl x hx
  · rw [List.mem_singleton.mp hx]
    exact hmsg

theorem inbox_sendAsync (h : s.Inv frames) (e : ℕ) {msg : QueuedMsg}
    (hmsg : Genuine s.spaces msg.origin msg.targetMsg DataCount) :
    Inbox s.mem s.spaces ((s.endpoint e).sendAsync msg) := by
  obtain ⟨l, hq, hl⟩ := h.inbox e
  refine ⟨_, Ipc.queued_sendAsync hq msg, fun x hx => ?_⟩
  rcases List.mem_append.mp hx with hx | hx
  · exact hl x hx
  · rw [List.mem_singleton.mp hx]
    exact hmsg

theorem inv_test {i : ℕ} (h : s.Inv frames) (hsound : Sender.Sound frames s.spaces ⟨c, .test i, given⟩)
    (hi : Genuine s.spaces ⟨c.connection, given⟩ (c.message frames s.mem) i)
    (hs : s.sendStep frames t n ⟨c, .test i, given⟩ = some s') : s'.Inv frames := by
  unfold DeliveryState.sendStep at hs
  by_cases hlt : i < DataCount
  · cases hasset : (IpcData.read (c.message frames s.mem) (16 * i)).isAsset with
    | true =>
      simp only [dif_pos hlt, hasset, if_true, Option.some_inj] at hs
      subst hs
      refine inv_goTo h s.locked (hsound.goTo_plain (by simp) (by simp)) fun n hn => ?_
      cases hn
      exact hi
    | false =>
      simp only [dif_pos hlt, hasset, Bool.false_eq_true, if_false, Option.some_inj] at hs
      subst hs
      refine inv_goTo h s.locked (hsound.goTo_plain (by simp) (by simp)) fun n hn => ?_
      cases hn
      exact hi.next hasset
  · simp only [dif_neg hlt, Option.some_inj] at hs
    subst hs
    refine inv_goTo h s.locked (hsound.goTo_plain (by simp) (by simp)) fun n hn => ?_
    cases hn
    exact hi.all hlt

theorem inv_lock (h : s.Inv frames) (hsound : Sender.Sound frames s.spaces ⟨c, .lock, given⟩)
    (hall : Genuine s.spaces ⟨c.connection, given⟩ (c.message frames s.mem) DataCount)
    (hs : s.sendStep frames t n ⟨c, .lock, given⟩ = some s') : s'.Inv frames := by
  unfold DeliveryState.sendStep at hs
  dsimp only at hs
  split at hs
  · cases hs
  · cases hkind : c.kind with
    | sync isCall =>
      rw [hkind, Option.some_inj] at hs
      subst hs
      refine inv_goTo h _ (hsound.goTo (fun _ _ => ?_) fun i handle hno => ?_) fun n hn => ?_
      · rw [hkind]
        simp
      · cases hno
      · cases hn
        exact hall
    | async =>
      rw [hkind, Option.some_inj] at hs
      subst hs
      refine inv_goTo h _ (hsound.goTo_plain (by simp) (by simp)) fun n hn => ?_
      cases hn
      show Genuine _ _ (Copying.seen _ _) _
      rw [seen_start]
      exact hall

/-- The message is queued where the kernel sees it. -/
theorem inv_push {isCall : Bool} (h : s.Inv frames) (hsound : Sender.Sound frames s.spaces ⟨c, .push isCall, given⟩)
    (hall : Genuine s.spaces ⟨c.connection, given⟩ (c.message frames s.mem) DataCount)
    (hs : s.sendStep frames t n ⟨c, .push isCall, given⟩ = some s') : s'.Inv frames := by
  have htogether := hsound.together (hsound.pushing isCall rfl)
  unfold DeliveryState.sendStep at hs
  dsimp only at hs
  split at hs
  · cases hs
    exact inv_leave h
  · rename_i phys hphys
    cases hs
    have hinbox := inbox_send h c.endpoint { origin := Sender.origin ⟨c, .push isCall, given⟩, kernelMemMsg := phys }
      t isCall (hall.copied fun k hk => congrArg s.mem (htogether phys hphys k hk))
    have hqueued := inv_endpoint h c.endpoint hinbox (update s.locked c.endpoint false)
    exact inv_goTo hqueued _ (hsound.goTo_plain (by simp) (by simp)) fun n hn => by cases hn

theorem inv_copy {copying : Copying} (h : s.Inv frames)
    (hsound : Sender.Sound frames s.spaces ⟨c, .copy copying, given⟩)
    (hall : Genuine s.spaces ⟨c.connection, given⟩ (copying.seen (c.message frames s.mem)) DataCount)
    (hs : s.sendStep frames t n ⟨c, .copy copying, given⟩ = some s') : s'.Inv frames := by
  unfold DeliveryState.sendStep at hs
  dsimp only at hs
  split at hs
  · rename_i copying' hstep
    cases hs
    refine inv_goTo h s.locked (hsound.goTo_plain (by simp) (by simp)) fun n hn => ?_
    cases hn
    show Genuine _ _ (Copying.seen _ _) _
    rw [seen_step hstep]
    exact hall
  · rename_i hend
    cases hs
    exact inv_leave (inv_endpoint h c.endpoint (inbox_sendAsync h c.endpoint (hall.copied (seen_end hend))) _)

/-- **A step of a send.** -/
theorem inv_sendStep (h : s.Inv frames) (hp : s.sender t = some p)
    (hspares : s.Spares frames (some t) (p.call.stored frames s.mem p.point))
    (hs : s.sendStep frames t n p = some s') : s'.Inv frames := by
  obtain ⟨hsound, hgenuine⟩ := h.sender t p hp
  obtain ⟨c, point, given⟩ := p
  cases point with
  | port =>
    cases hs
    refine inv_sender h (later_refl _) hspares s.locked _ fun p' hp' => ?_
    cases hp'
    refine ⟨hsound.goTo_plain (by simp) (by simp), fun n hn => ?_⟩
    cases hn
    exact genuine_port hsound.verified rfl
  | test i => exact inv_test h hsound (hgenuine i rfl) hs
  | find i =>
    unfold DeliveryState.sendStep at hs
    dsimp only at hs
    split at hs
    · cases hs
      exact inv_goTo h s.locked (hsound.goTo_plain (by simp) (by simp)) fun n hn => by cases hn
    · cases hs
      refine inv_goTo h s.locked (hsound.goTo_plain (by simp) (by simp)) fun n hn => ?_
      cases hn
      exact hgenuine i rfl
  | transfer i r =>
    unfold DeliveryState.sendStep at hs
    dsimp only at hs
    split at hs
    · cases hs
      exact inv_transferred h hsound (hgenuine i rfl) fun r' w hres => later_assetMove hres
    · obtain ⟨res, hres, rfl⟩ := Option.map_eq_some_iff.mp hs
      refine inv_transferred h hsound (hgenuine i rfl) fun r' w hok => ?_
      exact later_assetCopy (hok ▸ hres)
  | store i handle =>
    cases hs
    refine inv_sender h (later_refl _) hspares s.locked _ fun p' hp' => ?_
    cases hp'
    refine ⟨hsound.goTo_plain (by simp) (by simp), fun n hn => ?_⟩
    cases hn
    exact genuine_store hsound.verified (hgenuine i rfl) (hsound.storing i handle rfl)
  | clear =>
    cases hs
    exact inv_sender h (later_refl _) hspares s.locked none fun p' hp' => by cases hp'
  | lock => exact inv_lock h hsound (hgenuine _ rfl) hs
  | push isCall => exact inv_push h hsound (hgenuine _ rfl) hs
  | copy copying => exact inv_copy h hsound (hgenuine _ rfl) hs
  | wait => cases hs

/-- A receive has taken the oldest message of its endpoint, or none. -/
theorem inv_took (h : s.Inv frames) {e : ℕ} {space : SpacePtr} {target : ℕ → BitVec 8}
    {r : Ipc.Received QueuedMsg} {q : Ipc.Endpoint QueuedMsg}
    (htakes : ∀ l, Ipc.Queued (s.endpoint e) l → Ipc.Takes l (s.endpoint e) r q) :
    (s.took e space target (r, q)).Inv frames := by
  obtain ⟨l, hq, hl⟩ := h.inbox e
  rcases htakes l hq with ⟨x, l', rfl, rfl, hq'⟩ | ⟨hnone, rfl⟩
  · obtain ⟨hx, hl'⟩ := List.forall_mem_cons.mp hl
    have hinbox : Inbox s.mem s.spaces q := ⟨l', hq', hl'⟩
    cases x with
    | async x => exact inv_delivered (inv_endpoint h e hinbox s.locked) (authentic_of_genuine hx rfl rfl)
    | sync x =>
      refine inv_taking (inv_endpoint h e hinbox s.locked) e _ _ fun k hk => ?_
      cases hk
      show Genuine _ _ (Copying.seen _ _) _
      rw [seen_start]
      exact hx
  · cases r with
    | taken x => exact absurd rfl (hnone x)
    | interrupted => exact inv_endpoint h e ⟨l, hq, hl⟩ s.locked
    | isNull => exact inv_endpoint h e ⟨l, hq, hl⟩ s.locked
    | error text => exact inv_endpoint h e ⟨l, hq, hl⟩ s.locked

theorem inv_takeStep (h : s.Inv frames) {e retTask : ℕ} {k : Taking} (hk : s.taking e = some k) :
    (s.takeStep e n retTask k).Inv frames := by
  have hgenuine := h.taking e k hk
  unfold DeliveryState.takeStep
  split
  · rename_i copying hstep
    refine inv_taking h e _ s.locked fun k' hk' => ?_
    cases hk'
    show Genuine _ _ (Copying.seen _ _) _
    rw [seen_step hstep]
    exact hgenuine
  · rename_i hend
    have hmsg : Authentic s.spaces (.read k.copying.target) k.entry.kernelMemMsg.origin :=
      authentic_of_genuine (hgenuine.copied (seen_end hend)) rfl rfl
    have hlater : Later s.spaces
        (if k.entry.isCall then DeliveryState.createReturnTask s.spaces k.space retTask else s.spaces) := by
      split
      · exact later_createReturnTask k.space retTask
      · exact later_refl _
    have htaken := inv_taking (inv_delivered h hmsg) e none (update s.locked e false) fun k' hk' => by cases hk'
    exact inv_frame htaken hlater (spares_refl none)

/-- **One step** that disturbs no message. -/
theorem inv_step (h : s.Inv frames) {a : DeliveryAction} (ha : s.Undisturbed frames a)
    (hs : s.step frames a = some s') : s'.Inv frames := by
  cases a with
  | write x b =>
    cases hs
    exact inv_frame h (later_refl _) ha
  | send t c =>
    dsimp only [DeliveryState.step] at hs
    split at hs
    · cases hs
    · split at hs
      · rename_i hv
        cases hs
        refine inv_goTo h s.locked ⟨hv, ha, fun _ hno => ?_, fun _ _ hno => ?_⟩ fun n hn => ?_
        · cases hno
        · cases hno
        · cases hn
      · cases hs
  | task t n =>
    obtain ⟨p, hp, hs⟩ := Option.bind_eq_some_iff.mp hs
    exact inv_sendStep h hp (ha p hp) hs
  | receive e space signaled target =>
    dsimp only [DeliveryState.step] at hs
    split at hs
    · cases hs
    · obtain ⟨⟨r, q⟩, hr, rfl⟩ := Option.map_eq_some_iff.mp hs
      exact inv_took h fun l hq => Ipc.receive_spec hq hr
  | receiveAsync e space target =>
    dsimp only [DeliveryState.step] at hs
    split at hs
    · cases hs
    · obtain ⟨⟨r, q⟩, hr, rfl⟩ := Option.map_eq_some_iff.mp hs
      exact inv_took h fun l hq => Ipc.receiveAsync_spec hq hr
  | take e n retTask =>
    obtain ⟨k, hk, rfl⟩ := Option.map_eq_some_iff.mp hs
    exact inv_takeStep h hk
  | resume t =>
    dsimp only [DeliveryState.step] at hs
    split at hs
    · cases hs
      exact inv_leave h
    · cases hs

end Step

/-! ### Every run -/

section Runs

variable {frames : Frames} {s₀ s : DeliveryState}

theorem inv_start (h : s₀.Start) : s₀.Inv frames where
  sender t p hp := by
    rw [h.sender t] at hp
    cases hp
  inbox e := by
    rw [h.endpoint e]
    exact ⟨[], Ipc.inv_init.queued, fun x hx => absurd hx List.not_mem_nil⟩
  taking e k hk := by
    rw [h.taking e] at hk
    cases hk
  delivered x hx := by
    rw [h.delivered] at hx
    exact absurd hx List.not_mem_nil

end Runs

/-! ### One task -/

section Alone

variable {frames : Frames} {s s' : DeliveryState} {t n : ℕ} {p : Sender} {a : DeliveryAction}

/-- Only the task `t` sends, and nothing is in a sync queue or in a receive
unless the task waits. -/
structure Alone (s : DeliveryState) (t : ℕ) : Prop where
  others : ∀ t' p, s.sender t' = some p → t' = t
  empty : (∀ p, s.sender t = some p → p.point ≠ .wait) →
    (∀ e, (s.endpoint e).syncQueue.Repr []) ∧ ∀ e, s.taking e = none

/-- Nobody writes memory, and the task that sends does not go on while its
message waits. -/
def AllowsOne (frames : Frames) (t : ℕ) : DeliveryAction → Prop
  | .write _ _ | .resume _ => False
  | .send t' c => t' = t ∧ (c.kind ≠ .async → c.FieldsTogether frames)
  | _ => True

/-- A send changes its own state only, and if it does not wait then it has left
the sync queues as they were. -/
theorem sendStep_alone (hs : s.sendStep frames t n p = some s') : p.point ≠ .wait ∧ s'.taking = s.taking ∧
    ∃ q, s'.sender = update s.sender t q ∧
      ((∃ p', q = some p' ∧ p'.point = .wait) ∨ ∀ e, (s'.endpoint e).syncQueue = (s.endpoint e).syncQueue) := by
  obtain ⟨c, point, given⟩ := p
  unfold DeliveryState.sendStep at hs
  cases point with
  | port | test i | find i | store i handle | clear =>
    cases hs
    exact ⟨by simp, rfl, _, rfl, .inr fun _ => rfl⟩
  | transfer i r =>
    have hres : ∃ res, s' = s.transferred t ⟨c, .transfer i r, given⟩ i res := by
      dsimp only at hs
      split at hs
      · exact ⟨_, (Option.some.inj hs).symm⟩
      · obtain ⟨res, -, hs⟩ := Option.map_eq_some_iff.mp hs
        exact ⟨res, hs.symm⟩
    obtain ⟨res, rfl⟩ := hres
    cases res with
    | error e => exact ⟨by simp, rfl, _, rfl, .inr fun _ => rfl⟩
    | ok res => exact ⟨by simp, rfl, _, rfl, .inr fun _ => rfl⟩
  | lock =>
    dsimp only at hs
    split at hs
    · cases hs
    · cases hs
      exact ⟨by simp, rfl, _, rfl, .inr fun _ => rfl⟩
  | push isCall =>
    dsimp only at hs
    split at hs
    · cases hs
      exact ⟨by simp, rfl, _, rfl, .inr fun _ => rfl⟩
    · cases hs
      exact ⟨by simp, rfl, _, rfl, .inl ⟨_, rfl, rfl⟩⟩
  | copy copying =>
    dsimp only at hs
    split at hs
    · cases hs
      exact ⟨by simp, rfl, _, rfl, .inr fun _ => rfl⟩
    · cases hs
      refine ⟨by simp, rfl, _, rfl, .inr fun e => ?_⟩
      show (update s.endpoint c.endpoint _ e).syncQueue = _
      by_cases he : e = c.endpoint
      · rw [he, Function.update_self]
        rfl
      · rw [Function.update_of_ne he]
  | wait => cases hs

theorem alone_took (h : Alone s t) {e : ℕ} {space : SpacePtr} {target : ℕ → BitVec 8}
    {r : Ipc.Received QueuedMsg} {q : Ipc.Endpoint QueuedMsg} (hleaves : Ipc.Leaves (s.endpoint e) r q) :
    Alone (s.took e space target (r, q)) t := by
  have hsame : ∀ (hq : q.syncQueue = (s.endpoint e).syncQueue) (delivered : List (IpcMessage × Origin)),
      Alone { s with endpoint := update s.endpoint e q, delivered } t := by
    refine fun hq delivered => ⟨h.others, fun hidle => ?_⟩
    obtain ⟨hempty, htaking⟩ := h.empty hidle
    refine ⟨fun e' => ?_, htaking⟩
    show (update s.endpoint e q e').syncQueue.Repr []
    by_cases he : e' = e
    · rw [he, Function.update_self, hq]
      exact hempty e
    · rw [Function.update_of_ne he]
      exact hempty e'
  cases r with
  | taken x =>
    cases x with
    | async x => exact hsame hleaves _
    | sync x =>
      refine ⟨h.others, fun hidle => ?_⟩
      obtain ⟨l, hl, -⟩ := Ring.repr_of_pop ((h.empty hidle).1 e) hleaves
      cases hl
  | interrupted => exact hsame hleaves s.delivered
  | isNull => exact hsame hleaves s.delivered
  | error text => exact hsame hleaves s.delivered

theorem alone_step (h : Alone s t) (ha : AllowsOne frames t a) (hs : s.step frames a = some s') : Alone s' t := by
  cases a with
  | write x b => exact ha.elim
  | resume t' => exact ha.elim
  | send t' c =>
    obtain ⟨rfl, -⟩ := ha
    dsimp only [DeliveryState.step] at hs
    split at hs
    · cases hs
    · rename_i hnone
      split at hs
      · cases hs
        refine ⟨fun t'' p hp => ?_, fun _ => h.empty fun p hp => ?_⟩
        · by_contra hne
          exact hne (h.others t'' p ((Function.update_of_ne hne _ _).symm.trans hp))
        · rw [hnone] at hp
          cases hp
      · cases hs
  | task t' n =>
    obtain ⟨p, hp, hs⟩ := Option.bind_eq_some_iff.mp hs
    obtain rfl := h.others t' p hp
    obtain ⟨hpoint, htaking, q, hsender, hq⟩ := sendStep_alone hs
    refine ⟨fun t'' p' hp' => ?_, fun hidle => ?_⟩
    · by_contra hne
      rw [hsender, Function.update_of_ne hne] at hp'
      exact hne (h.others t'' p' hp')
    · obtain ⟨hempty, hnone⟩ := h.empty fun p' hp' => by
        rw [hp, Option.some_inj] at hp'
        exact hp' ▸ hpoint
      rcases hq with ⟨p', rfl, hwait⟩ | hsame
      · exact absurd hwait (hidle p' (by rw [hsender, Function.update_self]))
      · exact ⟨fun e => hsame e ▸ hempty e, fun e => htaking ▸ hnone e⟩
  | receive e space signaled target =>
    dsimp only [DeliveryState.step] at hs
    split at hs
    · cases hs
    · obtain ⟨⟨r, q⟩, hr, rfl⟩ := Option.map_eq_some_iff.mp hs
      exact alone_took h (Ipc.receive_leaves hr)
  | receiveAsync e space target =>
    dsimp only [DeliveryState.step] at hs
    split at hs
    · cases hs
    · obtain ⟨⟨r, q⟩, hr, rfl⟩ := Option.map_eq_some_iff.mp hs
      exact alone_took h (Ipc.receiveAsync_leaves hr)
  | take e n retTask =>
    obtain ⟨k, hk, rfl⟩ := Option.map_eq_some_iff.mp hs
    have hsender : (s.takeStep e n retTask k).sender = s.sender := by
      unfold DeliveryState.takeStep
      split <;> rfl
    refine ⟨fun t' p hp => h.others t' p (hsender ▸ hp), fun hidle => ?_⟩
    have hnone := (h.empty fun p hp => hidle p (hsender ▸ hp)).2 e
    rw [hk] at hnone
    cases hnone

/-- A task that sends alone disturbs no message. -/
theorem undisturbed_alone (h : Alone s t) (ha : AllowsOne frames t a) : s.Undisturbed frames a := by
  cases a with
  | write x b => exact ha.elim
  | send t' c => exact ha.2
  | task t' n =>
    intro p hp
    obtain rfl := h.others t' p hp
    cases hpoint : p.point with
    | port | store i handle | clear =>
      obtain ⟨hempty, hnone⟩ := h.empty fun p' hp' => by
        rw [hp, Option.some_inj] at hp'
        rw [← hp', hpoint]
        simp
      refine ⟨fun t'' p' n hne hp' _ => ?_, fun e l hl x hx => ?_, fun e k hk => ?_⟩
      · exact absurd (congrArg some (h.others t'' p' hp').symm) hne
      · rw [Ring.repr_unique hl (hempty e)] at hx
        cases hx
      · rw [hnone e] at hk
        cases hk
    | test i | find i | transfer i r | lock | push isCall | copy c | wait => exact spares_refl _
  | receive e space signaled target => trivial
  | receiveAsync e space target => trivial
  | take e n retTask => trivial
  | resume t' => trivial

theorem meets_alone : ∀ (os : List DeliveryAction) {s : DeliveryState}, Alone s t →
    (∀ a ∈ os, AllowsOne frames t a) →
    Meets (DeliveryState.step frames) (DeliveryState.Undisturbed frames) os s
  | [], _, _, _ => trivial
  | a :: os, s, h, ha => by
    obtain ⟨hhead, hrest⟩ := List.forall_mem_cons.mp ha
    exact ⟨undisturbed_alone h hhead, fun s' hs => meets_alone os (alone_step h hhead hs) hrest⟩

/-- A message in one piece has its fields together. -/
theorem fieldsTogether_of_onePiece {c : SendCall} (hv : Verified frames c.root c.msg)
    (hone : OnePiece frames c.root c.msg) : c.FieldsTogether frames := by
  obtain ⟨p, hp, hview⟩ := IpcSend.senderView_onePiece hv hone
  intro phys hphys k hk
  rw [hp, Except.ok.injEq] at hphys
  exact hphys ▸ hview k (Nat.lt_trans hk (by decide))

end Alone

/-- A message at the address 0, in the frame 16. -/
def oneCall (kind : Kind) : SendCall where
  kind
  sourceSpace := 1
  connection := { port := 7, targetMessageSpace := some 2 }
  endpoint := 0
  root := 0x1000
  msg := 0

/-- No task has an asset, and the memory is zero. -/
def blank : DeliveryState where
  mem := fun _ => 0
  spaces := fun _ => AssetTable.empty 0

/-- The first argument is the handle 5 of the sender. -/
def oneAsset : DeliveryState where
  mem := fun x => if x = 65536 then 1 else if x = 65544 then 5 else 0
  spaces := fun p =>
    if p = 1 then (AssetTable.empty 4).insertNew { asset := some 42, handle := 0 } (Option.some_ne_none 42)
    else AssetTable.empty 0

def sendAsset : List DeliveryAction :=
  .send 1 (oneCall (.sync false)) :: List.replicate 13 (.task 1 0) ++
    [.receive 0 2 false fun _ => 0, .take 0 112 0, .take 0 0 0]

/-- Another task writes the port while the message waits. -/
def forgePort : List DeliveryAction :=
  .send 1 (oneCall (.sync false)) :: List.replicate 10 (.task 1 0) ++
    [.write 65632 9, .receive 0 2 false fun _ => 0, .take 0 112 0, .take 0 0 0]

/-- It makes an argument that has been tested an asset, before `ipc_send_async`
copies the message. -/
def forgeHandle : List DeliveryAction :=
  .send 1 (oneCall .async) :: List.replicate 8 (.task 1 0) ++
    [.write 65536 1, .write 65544 5, .task 1 0, .task 1 112, .task 1 0, .receive 0 2 false fun _ => 0]

end Delivery
end WingOS
