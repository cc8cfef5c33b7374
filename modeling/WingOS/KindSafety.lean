/-
# Handles and kinds

A handle is a number that the caller chooses, and the asset under it can be of
any kind. The lookups that a handler starts with only read; `by_handle<T>`
refuses an asset of another kind, so a handler that uses it is honest: it uses
an asset as what it is, or returns an error and has done nothing.

`ksyscall_vm_mapping_create`, `ksyscall_vm_reg_read` and
`ksyscall_vm_reg_write` look their handles up with `by_handle`, without a kind,
and convert the reference. They take every asset for a virtual machine, and
every asset for a memory.

Key definitions: `KindSafe`, `WellKinded`.
Key theorems: `kindSafe_iff`, `kinds_safe_iff`.
-/
import WingOS.Syscalls
import WingOS.Lib.Run

namespace WingOS

open Lib Lib.Traced Sys

/-- The asset has the kind it is asked for or used as. -/
def KindFine (s : Objects) : SysEvent → Prop
  | .asked a kind | .used a kind => s.kindOf a = some kind
  | _ => True

def IsAsked : SysEvent → Prop
  | .asked .. => True
  | _ => False

def IsError : SysStop → Prop
  | .error _ => True
  | _ => False

/-- **No kind confusion** in a call: all assets it uses have the kind they are
used as, and if one it asks for has another kind, the call returns an error and
leaves everything as it was. -/
def KindSafe (env : CallEnv) (args : SyscallArgs) (s : Objects) : Prop :=
  Honest KindFine IsAsked IsError (syscallHandle env args) s

/-- The asset under a handle, in the space a call names. -/
def namedAsset (env : CallEnv) (s : Objects) (space handle : ℕ) : Option AssetPtr :=
  match (targetSpace env space s).result with
  | .ok space => (s.spaces space).assetAt handle
  | .error _ => none

/-- The handles of the calls for virtual machines stand for what they are
taken for, if the call gets to them. -/
def WellKinded (env : CallEnv) (args : SyscallArgs) (s : Objects) : Prop :=
  (syscallCheckPtr env args.size s).result = .ok () →
  match args with
  | .vmMappingCreate space vm _ _ physicalMem =>
    ∀ v m, namedAsset env s space vm = some v → namedAsset env s space physicalMem = some m →
      s.kindOf v = some .vm ∧ s.kindOf m = some .memory
  | .vmRegRead space vm _ | .vmRegWrite space vm _ _ =>
    ∀ v, namedAsset env s space vm = some v → s.kindOf v = some .vm
  | _ => True

variable {env : CallEnv} {s : Objects} {space handle : ℕ} {kind : ObjectKind}

/-! ### The lookups -/

theorem reads_byHandle (space : SpacePtr) (handle : ℕ) : Reads (byHandle space handle) :=
  reads_reading _

theorem reads_byHandleAs (kind : ObjectKind) (space : SpacePtr) (handle : ℕ) :
    Reads (byHandleAs kind space handle) := by
  apply reads_bind (reads_byHandle space handle)
  intro (r, a)
  exact reads_bind (reads_emit _) fun _ => reads_reading _

theorem reads_use (kind : ObjectKind) (a : AssetPtr) : Reads (use kind a) := reads_emit _

theorem reads_targetSpace (env : CallEnv) (handle : ℕ) : Reads (targetSpace env handle) := by
  unfold targetSpace
  split
  · exact reads_pure _
  · apply reads_bind (reads_byHandleAs .space env.callerSpace handle)
    intro (r, a)
    exact reads_bind (reads_use .space a) fun _ => reads_pure _

/-- What is found under a handle, and how it is returned. -/
theorem byHandle_cases (space : SpacePtr) (handle : ℕ) (s : Objects) :
    ((s.spaces space).assetAt handle = none ∧
      (byHandle space handle s).result = .error (.error "asset not found")) ∨
    ∃ r a, (s.spaces space).assetAt handle = some a ∧ (byHandle space handle s).result = .ok (r, a) := by
  unfold byHandle AssetTable.assetAt
  rw [reading_apply]
  cases hr : (s.spaces space).assets handle with
  | none => exact .inl ⟨rfl, rfl⟩
  | some r =>
    cases ha : r.asset with
    | none => exact absurd ha ((s.spaces space).asset_ne hr)
    | some a => exact .inr ⟨r, a, by simp [ha], by simp [ha]⟩

theorem only_byHandle {Q : SysEvent → Prop} (space : SpacePtr) (handle : ℕ) :
    Only Q (byHandle space handle) := only_reading _

/-- The asset that `by_handle<T>` finds is asked for, and returned if it has
the kind. -/
theorem byHandleAs_cases (kind : ObjectKind) (space : SpacePtr) (handle : ℕ) (s : Objects) :
    ((s.spaces space).assetAt handle = none ∧ (byHandleAs kind space handle s).trace = [] ∧
      (byHandleAs kind space handle s).result = .error (.error "asset not found")) ∨
    ∃ r a, (s.spaces space).assetAt handle = some a ∧
      (byHandleAs kind space handle s).trace = [.asked a kind] ∧
      (byHandleAs kind space handle s).result =
        if s.kindOf a = some kind then .ok (r, a) else .error (.error "asset kind mismatch") := by
  unfold byHandleAs
  obtain ⟨hnone, herror⟩ | ⟨r, a, ha, hok⟩ := byHandle_cases space handle s
  · rw [bind_error herror]
    exact .inl ⟨hnone, rfl, rfl⟩
  · rw [bind_ok hok, reads_byHandle space handle s]
    exact .inr ⟨r, a, ha, rfl, rfl⟩

theorem byHandleAs_ok {space : SpacePtr} {x : AssetRef × AssetPtr}
    (h : (byHandleAs kind space handle s).result = .ok x) :
    (s.spaces space).assetAt handle = some x.2 ∧ s.kindOf x.2 = some kind := by
  obtain ⟨-, -, herror⟩ | ⟨r, a, ha, -, hresult⟩ := byHandleAs_cases kind space handle s
  · rw [herror] at h
    cases h
  · rw [hresult] at h
    by_cases hkind : s.kindOf a = some kind
    · rw [if_pos hkind, Except.ok.injEq] at h
      rw [← h]
      exact ⟨ha, hkind⟩
    · rw [if_neg hkind] at h
      cases h

/-- A handler is honest from here on. -/
abbrev HonestFrom {α : Type} (p : Sys α) (s : Objects) : Prop := Honest KindFine IsAsked IsError p s

theorem honest_byHandle (space : SpacePtr) (handle : ℕ) : HonestFrom (byHandle space handle) s :=
  honest_of_only (only_byHandle (Q := fun _ => False) space handle) fun _ h => h.elim

/-- **A typed lookup is honest**: it refuses an asset of another kind. -/
theorem honest_byHandleAs (kind : ObjectKind) (space : SpacePtr) (handle : ℕ) :
    HonestFrom (byHandleAs kind space handle) s := by
  intro e he
  obtain ⟨-, htrace, -⟩ | ⟨r, a, -, htrace, hresult⟩ := byHandleAs_cases kind space handle s
  · rw [htrace] at he
    cases he
  · rw [htrace, List.mem_singleton] at he
    subst he
    by_cases hkind : s.kindOf a = some kind
    · exact .inl hkind
    · rw [if_neg hkind] at hresult
      exact .inr ⟨trivial, ⟨_, hresult, trivial⟩, reads_byHandleAs kind space handle s⟩

theorem honest_use {a : AssetPtr} (h : s.kindOf a = some kind) : HonestFrom (use kind a) s :=
  honest_emit h

/-- The trace is about the memory of the caller only. -/
def Silent : SysEvent → Prop
  | .asked .. | .used .. => False
  | _ => True

theorem honest_of_silent {α : Type} {p : Sys α} (h : Only Silent p) : HonestFrom p s := by
  apply honest_of_only h
  intro e he
  cases e with
  | asked | used => exact he.elim
  | accepted | translated | touched => trivial

theorem honest_pure {α : Type} (a : α) : HonestFrom (pure a : Sys α) s := honest_of_silent (only_pure a)

theorem honest_stop {α : Type} (t : SysStop) : HonestFrom (stop t : Sys α) s :=
  honest_of_silent (only_stop t)

theorem honest_effect {α : Type} (g : Objects → Except SysStop α × Objects) :
    HonestFrom (effect g : Sys α) s := honest_of_silent (only_effect g)

section Steps

variable {α β : Type} {x : AssetRef × AssetPtr}

theorem honest_use_bind {a : AssetPtr} {f : Unit → Sys β} (ha : s.kindOf a = some kind)
    (hf : HonestFrom (f ()) s) : HonestFrom (use kind a >>= f) s :=
  honest_bind (reads_use kind a) (honest_use ha) fun _ _ => hf

/-- A conversion to the kind an asset has. -/
theorem honest_convert_bind {a : AssetPtr} {f : Unit → Sys β} (ha : s.kindOf a = some kind)
    (hf : HonestFrom (f ()) s) : HonestFrom (convert kind a >>= f) s := by
  have hemit : HonestFrom (convert kind a) s := honest_emit ha
  exact honest_bind (reads_emit _) hemit fun _ _ => hf

theorem honest_byHandleAs_bind {space : SpacePtr} {f : AssetRef × AssetPtr → Sys β}
    (hf : ∀ x, s.kindOf x.2 = some kind → HonestFrom (f x) s) :
    HonestFrom (byHandleAs kind space handle >>= f) s :=
  honest_bind (reads_byHandleAs kind space handle) (honest_byHandleAs kind space handle)
    fun x hx => hf x (byHandleAs_ok hx).2

theorem honest_byHandle_bind {space : SpacePtr} {f : AssetRef × AssetPtr → Sys β}
    (hf : ∀ x, HonestFrom (f x) s) : HonestFrom (byHandle space handle >>= f) s :=
  honest_bind (reads_byHandle space handle) (honest_byHandle space handle) fun x _ => hf x

theorem honest_reading_bind {g : Objects → Except SysStop α} {f : α → Sys β}
    (hf : ∀ a, g s = .ok a → HonestFrom (f a) s) : HonestFrom (reading g >>= f) s :=
  honest_bind (reads_reading g) (honest_of_silent (only_reading g)) hf

theorem honest_targetSpace (env : CallEnv) (handle : ℕ) : HonestFrom (targetSpace env handle) s := by
  unfold targetSpace
  split
  · exact honest_pure _
  · apply honest_byHandleAs_bind
    intro x hx
    exact honest_use_bind hx (honest_pure _)

theorem honest_targetSpace_bind {f : SpacePtr → Sys β} (hf : ∀ space, HonestFrom (f space) s) :
    HonestFrom (targetSpace env handle >>= f) s :=
  honest_bind (reads_targetSpace env handle) (honest_targetSpace env handle) fun space _ => hf space

end Steps

/-! ### Messages and signals -/

theorem silent_updateInplaceMessage (source target : SpacePtr) (msg : ℕ)
    (ds : List IpcSend.IpcData) : Only Silent (Sys.updateInplaceMessage source target msg ds) :=
  only_bind (only_emit trivial) fun _ => only_effect _

theorem silent_touchMessage (msg : ℕ) (m : IpcSend.IpcMessage) : Only Silent (touchMessage msg m) :=
  only_bind (only_emit trivial) fun _ => only_emit trivial

theorem silent_ipcSend (env : CallEnv) (source : SpacePtr) (c : AssetPtr) (msg : ℕ) (isCall : Bool) :
    Only Silent (Sys.ipcSend env source c msg isCall) := by
  unfold Sys.ipcSend
  refine only_bind (only_reading _) ?_
  intro (port, endpoint, target, uuid, lastPort, queues)
  refine only_bind (only_emit trivial) ?_
  intro _
  refine only_bind (silent_updateInplaceMessage source target msg _) ?_
  intro (res, ds)
  cases res with
  | error _ => exact only_bind (only_emit trivial) fun _ => only_stop _
  | ok _ =>
    dsimp only
    split
    · exact only_stop _
    · exact only_bind (only_emit trivial) fun _ => only_effect _

theorem silent_ipcSendAsync (env : CallEnv) (source : SpacePtr) (c : AssetPtr) (msg : ℕ) :
    Only Silent (Sys.ipcSendAsync env source c msg) := by
  unfold Sys.ipcSendAsync
  refine only_bind (only_reading _) ?_
  intro (port, endpoint, target, uuid, lastPort, queues)
  refine only_bind (only_emit trivial) ?_
  intro _
  refine only_bind (silent_updateInplaceMessage source target msg _) ?_
  intro (res, ds)
  cases res with
  | error _ => exact only_bind (only_emit trivial) fun _ => only_stop _
  | ok _ => exact only_bind (silent_touchMessage msg _) fun _ => only_effect _

theorem silent_deliver (space : SpacePtr) (endpoint : AssetPtr) (target : ℕ)
    (rest : Ipc.Endpoint IpcSend.IpcMessage → SysAsset)
    (out : Option (Ipc.Received IpcSend.IpcMessage × Ipc.Endpoint IpcSend.IpcMessage)) :
    Only Silent (deliver space endpoint target rest out) := by
  unfold deliver
  split
  · exact only_stop _
  · exact only_bind (only_emit trivial) fun _ => only_pure _
  · exact only_bind (silent_touchMessage target _) fun _ => only_pure _
  · exact only_stop _
  · exact only_bind (silent_touchMessage target _) fun _ => only_effect _
  · exact only_bind (silent_touchMessage target _) fun _ => only_effect _

theorem silent_ipcReceive (env : CallEnv) (space : SpacePtr) (endpoint : AssetPtr) (target : ℕ)
    (async : Bool) : Only Silent (Sys.ipcReceive env space endpoint target async) := by
  unfold Sys.ipcReceive
  refine only_bind (only_reading _) ?_
  intro (owner, uuid, lastPort, queues)
  dsimp only
  split
  · exact silent_deliver _ _ _ _ _
  · split
    · exact silent_deliver _ _ _ _ _
    · exact only_stop _

theorem silent_signalAwait (env : CallEnv) (space : SpacePtr) (endpoint : AssetPtr) (async : Bool) :
    Only Silent (signalAwait env space endpoint async) := by
  unfold signalAwait
  refine only_bind (only_effect _) ?_
  intro handle
  split
  · exact only_pure _
  · split
    · exact only_bind (only_effect _) fun _ => only_pure _
    · exact only_stop _

/-! ### The handlers -/

theorem honest_map (env : CallEnv) (target start stop physicalMem : ℕ) (writable executable : Bool) :
    HonestFrom (Sys.map env target start stop physicalMem writable executable) s := by
  apply honest_targetSpace_bind
  intro space
  split
  · exact honest_stop _
  · apply honest_byHandleAs_bind
    intro (r, a) ha
    exact honest_use_bind ha (honest_effect _)

theorem honest_memRelease (env : CallEnv) (addr stop : ℕ) : HonestFrom (memRelease env addr stop) s := by
  unfold memRelease
  apply honest_reading_bind
  intro (a, physicalMem) hread
  have ha : s.kindOf a = some .mapping := by
    split at hread
    · cases hread
    · split at hread
      · rename_i hx
        split at hread
        · simp only [Except.ok.injEq, Prod.mk.injEq] at hread
          rw [← hread.1]
          simp [Objects.kindOf, hx, SysAsset.kind]
        · cases hread
      · cases hread
  apply honest_use_bind ha
  split
  · exact honest_stop _
  · apply honest_of_silent
    exact only_bind (only_effect _) fun _ => only_bind (only_effect _) fun _ => only_pure _

theorem honest_assetRelease (env : CallEnv) (space asset addr stop : ℕ) :
    HonestFrom (assetRelease env space asset addr stop) s := by
  unfold assetRelease
  split
  · exact honest_memRelease env addr stop
  · apply honest_targetSpace_bind
    intro space
    apply honest_byHandle_bind
    intro x
    exact honest_of_silent (only_bind (only_effect _) fun _ => only_pure _)

theorem honest_taskLaunch (env : CallEnv) (target task : ℕ) : HonestFrom (taskLaunch env target task) s := by
  apply honest_targetSpace_bind
  intro space
  apply honest_byHandleAs_bind
  intro (r, a) ha
  apply honest_use_bind ha
  split
  · exact honest_pure _
  · exact honest_stop _

theorem honest_assetMove (env : CallEnv) (source target asset : ℕ) :
    HonestFrom (Sys.assetMove env source target asset) s := by
  apply honest_targetSpace_bind
  intro source
  apply honest_targetSpace_bind
  intro target
  apply honest_byHandle_bind
  intro x
  exact honest_effect _

theorem honest_ipcConnect (env : CallEnv) (space : ℕ) (byAddress : Bool) (endpoint : ℕ) :
    HonestFrom (ipcConnect env space byAddress endpoint) s := by
  apply honest_targetSpace_bind
  intro space
  split
  · apply honest_reading_bind
    intro e _
    exact honest_effect _
  · apply honest_byHandleAs_bind
    intro (r, a) ha
    exact honest_use_bind ha (honest_effect _)

theorem honest_send (env : CallEnv) (space : ℕ) (async : Bool) (connection message : ℕ) :
    HonestFrom (send env space async connection message) s := by
  apply honest_targetSpace_bind
  intro space
  apply honest_byHandleAs_bind
  intro (r, c) hc
  apply honest_use_bind hc
  split
  · exact honest_of_silent (silent_ipcSendAsync env space c message)
  · exact honest_of_silent (silent_ipcSend env space c message false)

theorem honest_receive (env : CallEnv) (space endpoint : ℕ) (async : Bool) (message : ℕ) :
    HonestFrom (receive env space endpoint async message) s := by
  unfold receive
  split
  · apply honest_reading_bind
    intro e _
    exact honest_of_silent (silent_signalAwait _ _ _ _)
  · apply honest_targetSpace_bind
    intro space
    apply honest_reading_bind
    intro e _
    apply honest_reading_bind
    intro kind hkind
    rw [Except.ok.injEq] at hkind
    subst hkind
    split
    · rename_i hkind
      apply honest_convert_bind hkind
      exact honest_use_bind hkind (honest_of_silent (silent_signalAwait _ _ _ _))
    · rename_i hkind
      apply honest_convert_bind hkind
      exact honest_use_bind hkind (honest_of_silent (silent_ipcReceive _ _ _ _ _))
    · exact honest_stop _

theorem honest_ipcCall (env : CallEnv) (space connection message : ℕ) :
    HonestFrom (ipcCall env space connection message) s := by
  apply honest_targetSpace_bind
  intro space
  apply honest_byHandleAs_bind
  intro (r, c) hc
  exact honest_use_bind hc (honest_of_silent (silent_ipcSend env space c message true))

theorem honest_ipcReply (env : CallEnv) (space returnTask message : ℕ) :
    HonestFrom (ipcReply env space returnTask message) s := by
  apply honest_targetSpace_bind
  intro space
  apply honest_byHandleAs_bind
  intro (r, a) ha
  apply honest_use_bind ha
  apply honest_reading_bind
  intro owner _
  apply honest_of_silent
  refine only_bind (silent_updateInplaceMessage _ _ _ _) ?_
  intro (res, ds)
  cases res with
  | error _ => exact only_stop _
  | ok _ =>
    refine only_bind (silent_touchMessage message _) ?_
    intro _
    exact only_bind (only_effect _) fun _ => only_pure _

theorem reads_infoAsset (env : CallEnv) (space : SpacePtr) (useIndex : Bool) (asset : ℕ) :
    Reads (infoAsset env space useIndex asset) := by
  unfold infoAsset
  split
  · exact reads_pure _
  · split
    · exact reads_reading _
    · exact reads_bind (reads_byHandle _ _) fun _ => reads_pure _

theorem honest_infoAsset (env : CallEnv) (space : SpacePtr) (useIndex : Bool) (asset : ℕ) :
    HonestFrom (infoAsset env space useIndex asset) s := by
  unfold infoAsset
  split
  · exact honest_pure _
  · split
    · exact honest_of_silent (only_reading _)
    · exact honest_byHandle_bind fun _ => honest_pure _

theorem honest_assetInfo (env : CallEnv) (space : ℕ) (useIndex : Bool) (asset : ℕ) :
    HonestFrom (assetInfo env space useIndex asset) s := by
  apply honest_targetSpace_bind
  intro space
  apply honest_bind (reads_infoAsset env space useIndex asset) (honest_infoAsset _ _ _ _)
  intro a _
  apply honest_reading_bind
  intro kind hkind
  rw [Except.ok.injEq] at hkind
  subst hkind
  cases hkind : s.kindOf a with
  | none => exact honest_stop _
  | some kind =>
    dsimp only
    split
    · exact honest_use_bind hkind (honest_pure _)
    · exact honest_pure _

theorem honest_x86Port (env : CallEnv) (space size : ℕ) : HonestFrom (x86Port env space size) s := by
  apply honest_targetSpace_bind
  intro space
  split
  · exact honest_pure _
  · exact honest_stop _

/-! ### The calls for virtual machines -/

theorem byHandle_ok {space : SpacePtr} {x : AssetRef × AssetPtr}
    (h : (byHandle space handle s).result = .ok x) : (s.spaces space).assetAt handle = some x.2 := by
  obtain ⟨-, herror⟩ | ⟨r, a, ha, hok⟩ := byHandle_cases space handle s
  · rw [herror] at h
    cases h
  · rw [hok, Except.ok.injEq] at h
    rw [← h]
    exact ha

/-- A lookup without a kind: what follows has to be honest for the asset found. -/
theorem honest_lookup_iff {β : Type} {space : SpacePtr} {f : AssetRef × AssetPtr → Sys β}
    {P : AssetPtr → Prop} (hf : ∀ x, HonestFrom (f x) s ↔ P x.2) :
    HonestFrom (byHandle space handle >>= f) s ↔ ∀ a, (s.spaces space).assetAt handle = some a → P a := by
  rw [HonestFrom, honest_bind_iff (reads_byHandle space handle) (honest_byHandle space handle)]
  constructor
  · intro h a ha
    obtain ⟨hnone, -⟩ | ⟨r, b, hb, hok⟩ := byHandle_cases space handle s
    · rw [hnone] at ha
      cases ha
    · rw [hb, Option.some.injEq] at ha
      subst ha
      exact (hf (r, b)).mp (h (r, b) hok)
  · intro h x hx
    exact (hf x).mpr (h x.2 (byHandle_ok hx))

/-- The same for the space a call names. -/
theorem honest_targetSpace_iff {β : Type} {f : SpacePtr → Sys β} {P : SpacePtr → Prop}
    (hf : ∀ space, HonestFrom (f space) s ↔ P space) :
    HonestFrom (targetSpace env handle >>= f) s ↔
      ∀ space, (targetSpace env handle s).result = .ok space → P space := by
  rw [HonestFrom, honest_bind_iff (reads_targetSpace env handle) (honest_targetSpace env handle)]
  exact forall₂_congr fun space _ => hf space

/-- The asset of a handle, in the space a call names. -/
theorem forall_named_iff {P : AssetPtr → Prop} :
    (∀ space', (targetSpace env space s).result = .ok space' →
      ∀ a, (s.spaces space').assetAt handle = some a → P a) ↔
    ∀ a, namedAsset env s space handle = some a → P a := by
  unfold namedAsset
  cases (targetSpace env space s).result with
  | error t => simp
  | ok space' => simp

theorem honest_vmRegRead_iff (env : CallEnv) (space vm : ℕ) :
    HonestFrom (vmRegRead env space vm) s ↔
      ∀ v, namedAsset env s space vm = some v → s.kindOf v = some .vm := by
  have htail : ∀ x : AssetRef × AssetPtr,
      HonestFrom (convert .vm x.2 >>= fun _ => pure 0) s ↔ s.kindOf x.2 = some .vm := by
    intro x
    refine ⟨fun h => ?_, fun h => honest_convert_bind h (honest_pure 0)⟩
    have hasked := h (.asked x.2 .vm) (by simp [convert])
    apply hasked.elim id
    -- nothing is refused here
    intro ⟨_, ⟨t, ht, _⟩, _⟩
    cases ht
  exact (honest_targetSpace_iff fun _ => honest_lookup_iff htail).trans forall_named_iff

theorem honest_vmRegWrite_iff (env : CallEnv) (space vm : ℕ) :
    HonestFrom (vmRegWrite env space vm) s ↔
      ∀ v, namedAsset env s space vm = some v → s.kindOf v = some .vm := by
  have htail : ∀ x : AssetRef × AssetPtr,
      HonestFrom (convert .vm x.2 >>= fun _ => use .vm x.2 >>= fun _ => pure 0) s ↔
        s.kindOf x.2 = some .vm := by
    intro x
    refine ⟨fun h => ?_, fun h => honest_convert_bind h (honest_use_bind h (honest_pure 0))⟩
    have hused := h (.used x.2 .vm) (by simp [convert, use])
    exact hused.elim id fun hexcused => hexcused.1.elim
  exact (honest_targetSpace_iff fun _ => honest_lookup_iff htail).trans forall_named_iff

/-- What `ksyscall_vm_mapping_create` does with the two assets. -/
theorem honest_vmMapping_iff {space : SpacePtr} (v : AssetPtr) (physicalMem : ℕ) :
    HonestFrom (convert .vm v >>= fun _ => byHandle space physicalMem >>= fun x =>
        convert .memory x.2 >>= fun _ => use .vm v >>= fun _ => use .memory x.2 >>= fun _ =>
          effect fun s => s.create space (.vmMapping x.2)) s ↔
      ∀ m, (s.spaces space).assetAt physicalMem = some m →
        s.kindOf v = some .vm ∧ s.kindOf m = some .memory := by
  obtain ⟨hnone, herror⟩ | ⟨r, m, hm, hok⟩ := byHandle_cases space physicalMem s
  · -- the second handle is refused, and that excuses the first
    refine ⟨fun _ m hm => ?_, fun _ e he => ?_⟩
    · rw [hnone] at hm
      cases hm
    · rw [convert, emit_bind, bind_error herror] at he ⊢
      have hasked : e = .asked v .vm := by simpa [byHandle] using he
      subst hasked
      exact .inr ⟨trivial, ⟨_, rfl, trivial⟩, rfl⟩
  · constructor
    · intro h m' hm'
      rw [hm, Option.some.injEq] at hm'
      subst hm'
      have hv := h (.used v .vm) (by simp [convert, use, emit_bind, bind_ok hok])
      have hm := h (.used m .memory) (by simp [convert, use, emit_bind, bind_ok hok])
      exact ⟨hv.elim id fun hexcused => hexcused.1.elim, hm.elim id fun hexcused => hexcused.1.elim⟩
    · intro h
      obtain ⟨hv, hkind⟩ := h m hm
      apply honest_convert_bind hv
      apply honest_bind (reads_byHandle space physicalMem) (honest_byHandle space physicalMem)
      intro x hx
      rw [hok, Except.ok.injEq] at hx
      subst hx
      apply honest_convert_bind hkind
      exact honest_use_bind hv (honest_use_bind hkind (honest_effect _))

theorem honest_vmMappingCreate_iff (env : CallEnv) (space vm physicalMem : ℕ) :
    HonestFrom (vmMappingCreate env space vm physicalMem) s ↔
      ∀ v m, namedAsset env s space vm = some v → namedAsset env s space physicalMem = some m →
        s.kindOf v = some .vm ∧ s.kindOf m = some .memory := by
  have htail : ∀ space', HonestFrom (byHandle space' vm >>= fun x => convert .vm x.2 >>= fun _ =>
      byHandle space' physicalMem >>= fun y => convert .memory y.2 >>= fun _ => use .vm x.2 >>= fun _ =>
        use .memory y.2 >>= fun _ => effect fun s => s.create space' (.vmMapping y.2)) s ↔
      ∀ v, (s.spaces space').assetAt vm = some v → ∀ m, (s.spaces space').assetAt physicalMem = some m →
        s.kindOf v = some .vm ∧ s.kindOf m = some .memory :=
    fun _ => honest_lookup_iff fun x => honest_vmMapping_iff x.2 physicalMem
  refine (honest_targetSpace_iff htail).trans ?_
  unfold namedAsset
  cases (targetSpace env space s).result with
  | error t => simp
  | ok space' =>
    simp only [Except.ok.injEq, forall_eq']
    exact ⟨fun h v m hv hm => h v hv m hm, fun h v hv m hm => h v m hv hm⟩

/-! ### Every call -/

/-- The check of the pointer to the arguments accepts all of them or none. -/
theorem check_cases (env : CallEnv) (size : ℕ) (s : Objects) :
    (∃ t, (syscallCheckPtr env size s).result = .error t ∧ (syscallCheckPtr env size s).trace = []) ∨
      ((syscallCheckPtr env size s).result = .ok () ∧
        (syscallCheckPtr env size s).trace = [.accepted env.arg1 size]) := by
  unfold syscallCheckPtr
  by_cases hnull : env.arg1 = 0
  · rw [if_pos hnull]
    exact .inl ⟨_, rfl, rfl⟩
  · rw [if_neg hnull]
    by_cases hbase : mmapIoBase ≤ env.arg1
    · rw [if_pos hbase]
      exact .inl ⟨_, rfl, rfl⟩
    · rw [if_neg hbase]
      cases verify env env.arg1 size with
      | error e => exact .inl ⟨_, rfl, rfl⟩
      | ok _ => exact .inr ⟨rfl, rfl⟩

theorem reads_check (env : CallEnv) (size : ℕ) : Reads (syscallCheckPtr env size) := by
  unfold syscallCheckPtr
  repeat' split
  · exact reads_stop _
  · exact reads_stop _
  · exact reads_stop _
  · exact reads_emit _

/-- It comes before the handler. -/
theorem honest_checked_iff {size : ℕ} {p : Sys ℕ} :
    HonestFrom (syscallCheckPtr env size >>= fun _ => emit (.touched env.arg1 size) >>= fun _ => p) s ↔
      ((syscallCheckPtr env size s).result = .ok () → HonestFrom p s) := by
  have hcheck : HonestFrom (syscallCheckPtr env size) s := by
    intro e he
    obtain ⟨t, -, htrace⟩ | ⟨-, htrace⟩ := check_cases env size s
    · rw [htrace] at he
      cases he
    · rw [htrace, List.mem_singleton] at he
      subst he
      exact .inl trivial
  rw [HonestFrom, honest_bind_iff (reads_check env size) hcheck]
  have htouch : HonestFrom (emit (.touched env.arg1 size) >>= fun _ => p) s ↔ HonestFrom p s := by
    rw [HonestFrom, honest_bind_iff (reads_emit _) (honest_emit trivial)]
    simp
  simp only [htouch]
  exact ⟨fun h => h (), fun h _ => h⟩

/-- The three handlers that look up without a kind. -/
def Untyped : SyscallArgs → Prop
  | .vmMappingCreate .. | .vmRegRead .. | .vmRegWrite .. => True
  | _ => False

/-- All other handlers are honest, whatever is under their handles. -/
theorem honest_dispatch {args : SyscallArgs} (h : ¬ Untyped args) : HonestFrom (dispatch env args) s := by
  cases args with
  | vmMappingCreate | vmRegRead | vmRegWrite => exact absurd trivial h
  | debugLog => exact honest_pure _
  | unknown => exact honest_stop _
  | memOwn | taskCreate | spaceCreate | ipcCreateEndpoint | vmCreate =>
    exact honest_targetSpace_bind fun _ => honest_effect _
  | map => exact honest_map _ _ _ _ _ _ _
  | assetRelease => exact honest_assetRelease _ _ _ _ _
  | taskLaunch => exact honest_taskLaunch _ _ _
  | assetMove => exact honest_assetMove _ _ _ _
  | ipcConnect => exact honest_ipcConnect _ _ _ _
  | ipcSend => exact honest_send _ _ _ _ _
  | ipcReceive => exact honest_receive _ _ _ _ _
  | ipcCall => exact honest_ipcCall _ _ _ _
  | ipcReply => exact honest_ipcReply _ _ _ _
  | assetInfo => exact honest_assetInfo _ _ _ _
  | x86Port => exact honest_x86Port _ _ _

/-- **When a call is free of kind confusion.** -/
theorem kindSafe_iff (env : CallEnv) (args : SyscallArgs) (s : Objects) :
    KindSafe env args s ↔ WellKinded env args s := by
  unfold KindSafe WellKinded
  cases args with
  | debugLog =>
    simp only [implies_true, iff_true]
    exact honest_of_silent (only_bind (only_emit trivial) fun _ => only_pure _)
  | unknown =>
    simp only [implies_true, iff_true]
    exact honest_stop _
  | vmMappingCreate space vm start stop physicalMem =>
    exact honest_checked_iff.trans (imp_congr_right fun _ => honest_vmMappingCreate_iff _ _ _ _)
  | vmRegRead space vm address =>
    exact honest_checked_iff.trans (imp_congr_right fun _ => honest_vmRegRead_iff _ _ _)
  | vmRegWrite space vm address value =>
    exact honest_checked_iff.trans (imp_congr_right fun _ => honest_vmRegWrite_iff _ _ _)
  | memOwn | map | taskCreate | spaceCreate | assetRelease | taskLaunch | assetMove
  | ipcCreateEndpoint | ipcConnect | ipcSend | ipcReceive | ipcCall | ipcReply | assetInfo | vmCreate
  | x86Port =>
    simp only [implies_true, iff_true]
    exact honest_checked_iff.mpr fun _ => honest_dispatch id

/-- One call of a run. The kernel is gone after `unreachable$`. -/
def Objects.step (s : Objects) (op : CallEnv × SyscallArgs) : Option Objects :=
  match (syscallHandle op.1 op.2 s).result with
  | .error .panic => none
  | _ => some (syscallHandle op.1 op.2 s).state

/-- **Handles and kinds.** In a run, from any state, no call confuses kinds if
and only if at each call for a virtual machine the handles stand for a virtual
machine and a memory. -/
theorem kinds_safe_iff (ops : List (CallEnv × SyscallArgs)) (s : Objects) :
    Meets Objects.step (fun s op => KindSafe op.1 op.2 s) ops s ↔
      Meets Objects.step (fun s op => WellKinded op.1 op.2 s) ops s :=
  meets_congr (fun s op => kindSafe_iff op.1 op.2 s) ops s

/-- The root space with nothing in it. -/
def rootObjects : Objects where
  kernelVirtualBase := 0xffffffff80000000
  spaces := fun _ => AssetTable.selfSpace 0 16
  assets := fun a => if a = 0 then some .space else if a = 1 then some (.task 0) else none
  nextPtr := 2
  servers := []
  nextServer := 16
  spaceId := 1
  lastVmUid := 16
  internalSignals := []

/-- Page tables with one user page, at 4096. -/
def onePage : Frames := fun _ i =>
  if i = 0 ∨ i = 1 then { present := true, writeable := true, user := true } else {}

/-- A caller in the root space, with its arguments at 4096. -/
def rootEnv : CallEnv where
  caller := 1
  callerSpace := 0
  arg1 := 4096
  frames := onePage
  root := 0
  message := .empty
  textLength := 0
  allocated := some 0x100000
  mapped := true
  created := true
  launched := true
  found := 0
  indexed := none
  signaled := false

/-- A memory is made, and its handle used as a virtual machine. -/
def memoryAsVm : List (CallEnv × SyscallArgs) :=
  [(rootEnv, .memOwn 0 4096 0), (rootEnv, .vmRegWrite 0 17 0 0)]

theorem memory_used_as_vm :
    ¬ Meets Objects.step (fun s op => KindSafe op.1 op.2 s) memoryAsVm rootObjects := by
  intro hmeets
  have hsafe := (hmeets.2 (syscallHandle rootEnv (.memOwn 0 4096 0) rootObjects).state rfl).1
  have hkinded := (kindSafe_iff _ _ _).mp hsafe
  have hkind := hkinded rfl 2 rfl
  cases hkind

end WingOS
