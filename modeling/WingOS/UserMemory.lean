/-
# The memory of the caller

Every address that comes from the caller has to be checked before it is read
or written. `syscall_check_ptr` checks the structure with the arguments, and
nothing else: the message a structure points to, and the text of a log call,
are used as they come. `ipc_send` looks the page of the message up, after it
has written to it.

A call is safe if it does not get to such a pointer (`memory_checked_iff`). One
case remains: `ipc_receive_async` on an empty endpoint writes a single byte of
the message, and that byte can lie in the structure that was checked.

Key definitions: `Validated`, `MemoryChecked`, `AvoidsMessage`.
Key theorem: `memory_checked_iff`.
-/
import WingOS.KindSafety

namespace WingOS

open Lib Lib.Traced Sys

/-- Each address is touched after it was checked: the bytes in `C` were
checked before. -/
def Validated : (C : ℕ → Prop) → List SysEvent → Prop
  | _, [] => True
  | C, .accepted addr size :: es => Validated (fun b => C b ∨ (addr ≤ b ∧ b < addr + size)) es
  | C, .translated addr :: es => Validated (fun b => C b ∨ b / 4096 = addr / 4096) es
  | C, .touched addr size :: es => (∀ b, addr ≤ b → b < addr + size → C b) ∧ Validated C es
  | C, .asked .. :: es => Validated C es
  | C, .used .. :: es => Validated C es

/-- **The memory of the caller is touched after it was checked**, in a call. -/
def MemoryChecked (env : CallEnv) (args : SyscallArgs) (s : Objects) : Prop :=
  Validated (fun _ => False) (syscallHandle env args s).trace

/-- A receive that ends like this does not touch the message at `target`, or
only the byte `is_null` of it, and that is in the arguments. -/
def DeliversNothing (env : CallEnv) (target : ℕ) :
    Option (Ipc.Received IpcSend.IpcMessage × Ipc.Endpoint IpcSend.IpcMessage) → Prop
  | none | some (.error _, _) => True
  | some (.isNull, _) => env.arg1 ≤ target + 106 ∧ target + 106 < env.arg1 + 40
  | some (.interrupted, _) | some (.taken _, _) => False

/-- What `ipc_receive` or `ipc_receive_async` find at an endpoint. -/
def received (env : CallEnv) (async : Bool) (queues : Ipc.Endpoint IpcSend.IpcMessage) :
    Option (Ipc.Received IpcSend.IpcMessage × Ipc.Endpoint IpcSend.IpcMessage) :=
  if async then queues.receiveAsync
  else if queues.hasMessage || env.signaled then queues.receive env.signaled
  else none

/-- The call does not get to the message: the handle it needs is not the one
of a connection or a return task, or there is nothing to receive. -/
def AvoidsMessage (env : CallEnv) (args : SyscallArgs) (s : Objects) : Prop :=
  match args with
  | .debugLog => False
  | .ipcSend space _ connection _ | .ipcCall space connection _ =>
    (syscallCheckPtr env args.size s).result = .ok () →
      ∀ c, namedAsset env s space connection = some c → s.endpointOf c = none
  | .ipcReply space returnTask _ =>
    (syscallCheckPtr env args.size s).result = .ok () →
      ∀ r, namedAsset env s space returnTask = some r → s.replySpace r = none
  | .ipcReceive space endpoint async target =>
    (syscallCheckPtr env args.size s).result = .ok () → space ≠ internalSpace →
      ∀ e owner uuid lastPort queues, namedAsset env s space endpoint = some e →
        s.assets e = some (.ipcEndpoint owner uuid lastPort queues) →
          DeliversNothing env target (received env async queues)
  | _ => True

/-! ### Traces -/

/-- An entry that is not about memory. -/
def Quiet : SysEvent → Prop
  | .asked .. | .used .. => True
  | _ => False

theorem validated_quiet_append {C : ℕ → Prop} : ∀ {es : List SysEvent}, (∀ e ∈ es, Quiet e) →
    ∀ es', Validated C (es ++ es') ↔ Validated C es'
  | [], _, _ => Iff.rfl
  | e :: es, h, es' => by
    have htail : Validated C (es ++ es') ↔ Validated C es' :=
      validated_quiet_append (fun e' he' => h e' (List.mem_cons_of_mem e he')) es'
    have he := h e List.mem_cons_self
    cases e with
    | asked | used => exact htail
    | accepted | translated | touched => exact he.elim

theorem validated_of_only {α : Type} {p : Sys α} (h : Only Quiet p) {C : ℕ → Prop} {s : Objects} :
    Validated C (p s).trace := by
  have := (validated_quiet_append (C := C) (h s) []).mpr trivial
  rwa [List.append_nil] at this

/-- A lookup comes before: what follows has to be validated if it succeeds. -/
theorem validated_bind_iff {α β : Type} {p : Sys α} {f : α → Sys β} {C : ℕ → Prop} {s : Objects}
    (hread : Reads p) (hp : Only Quiet p) :
    Validated C ((p >>= f) s).trace ↔ ∀ a, (p s).result = .ok a → Validated C (f a s).trace := by
  cases h : (p s).result with
  | error t =>
    rw [bind_error h]
    simp only [reduceCtorEq, false_implies, implies_true, iff_true]
    exact validated_of_only hp
  | ok a =>
    rw [bind_ok h, hread s, validated_quiet_append (hp s)]
    simp

/-! ### Lookups and the handlers without a message -/

section QuietHandlers

variable {env : CallEnv} {s : Objects}

theorem quiet_use (kind : ObjectKind) (a : AssetPtr) : Only Quiet (use kind a) := only_emit trivial

theorem quiet_byHandleAs (kind : ObjectKind) (space : SpacePtr) (handle : ℕ) :
    Only Quiet (byHandleAs kind space handle) := by
  unfold byHandleAs
  refine only_bind (only_byHandle space handle) ?_
  intro (r, a)
  exact only_bind (only_emit trivial) fun _ => only_reading _

theorem quiet_targetSpace (env : CallEnv) (handle : ℕ) : Only Quiet (targetSpace env handle) := by
  unfold targetSpace
  split
  · exact only_pure _
  · refine only_bind (quiet_byHandleAs .space _ handle) ?_
    intro (r, a)
    exact only_bind (quiet_use .space a) fun _ => only_pure _

theorem quiet_signalAwait (env : CallEnv) (space : SpacePtr) (endpoint : AssetPtr) (async : Bool) :
    Only Quiet (signalAwait env space endpoint async) := by
  unfold signalAwait
  refine only_bind (only_effect _) ?_
  intro handle
  split
  · exact only_pure _
  · split
    · exact only_bind (only_effect _) fun _ => only_pure _
    · exact only_stop _

theorem quiet_map (env : CallEnv) (target start stop physicalMem : ℕ) (writable executable : Bool) :
    Only Quiet (Sys.map env target start stop physicalMem writable executable) := by
  unfold Sys.map
  refine only_bind (quiet_targetSpace env target) ?_
  intro space
  split
  · exact only_stop _
  · refine only_bind (quiet_byHandleAs .memory space physicalMem) ?_
    intro (r, a)
    exact only_bind (quiet_use .memory a) fun _ => only_effect _

theorem quiet_assetRelease (env : CallEnv) (space asset addr stop : ℕ) :
    Only Quiet (assetRelease env space asset addr stop) := by
  unfold assetRelease
  split
  · unfold memRelease
    refine only_bind (only_reading _) ?_
    intro (a, physicalMem)
    refine only_bind (quiet_use .mapping a) ?_
    intro _
    split
    · exact only_stop _
    · exact only_bind (only_effect _) fun _ => only_bind (only_effect _) fun _ => only_pure _
  · refine only_bind (quiet_targetSpace env space) ?_
    intro space
    refine only_bind (only_byHandle space asset) ?_
    intro _
    exact only_bind (only_effect _) fun _ => only_pure _

theorem quiet_taskLaunch (env : CallEnv) (target task : ℕ) : Only Quiet (taskLaunch env target task) := by
  unfold taskLaunch
  refine only_bind (quiet_targetSpace env target) ?_
  intro space
  refine only_bind (quiet_byHandleAs .task space task) ?_
  intro (r, a)
  refine only_bind (quiet_use .task a) ?_
  intro _
  split
  · exact only_pure _
  · exact only_stop _

theorem quiet_assetMove (env : CallEnv) (source target asset : ℕ) :
    Only Quiet (Sys.assetMove env source target asset) := by
  unfold Sys.assetMove
  refine only_bind (quiet_targetSpace env source) ?_
  intro source
  refine only_bind (quiet_targetSpace env target) ?_
  intro target
  exact only_bind (only_byHandle source asset) fun _ => only_effect _

theorem quiet_ipcConnect (env : CallEnv) (space : ℕ) (byAddress : Bool) (endpoint : ℕ) :
    Only Quiet (ipcConnect env space byAddress endpoint) := by
  unfold ipcConnect
  refine only_bind (quiet_targetSpace env space) ?_
  intro space
  split
  · exact only_bind (only_reading _) fun _ => only_effect _
  · refine only_bind (quiet_byHandleAs .ipcEndpoint space endpoint) ?_
    intro (r, a)
    exact only_bind (quiet_use .ipcEndpoint a) fun _ => only_effect _

theorem quiet_assetInfo (env : CallEnv) (space : ℕ) (useIndex : Bool) (asset : ℕ) :
    Only Quiet (assetInfo env space useIndex asset) := by
  unfold assetInfo
  refine only_bind (quiet_targetSpace env space) ?_
  intro space
  refine only_bind ?_ ?_
  · unfold infoAsset
    split
    · exact only_pure _
    · split
      · exact only_reading _
      · exact only_bind (only_byHandle _ _) fun _ => only_pure _
  · intro a
    refine only_bind (only_reading _) ?_
    intro kind
    cases kind with
    | none => exact only_stop _
    | some kind =>
      dsimp only
      split
      · exact only_bind (quiet_use kind a) fun _ => only_pure _
      · exact only_pure _

theorem quiet_vmMappingCreate (env : CallEnv) (space vm physicalMem : ℕ) :
    Only Quiet (vmMappingCreate env space vm physicalMem) := by
  unfold vmMappingCreate
  refine only_bind (quiet_targetSpace env space) ?_
  intro space
  refine only_bind (only_byHandle space vm) ?_
  intro (r, v)
  refine only_bind (only_emit trivial) ?_
  intro _
  refine only_bind (only_byHandle space physicalMem) ?_
  intro (r', m)
  refine only_bind (only_emit trivial) ?_
  intro _
  refine only_bind (quiet_use .vm v) ?_
  intro _
  exact only_bind (quiet_use .memory m) fun _ => only_effect _

theorem quiet_vmRegRead (env : CallEnv) (space vm : ℕ) : Only Quiet (vmRegRead env space vm) := by
  unfold vmRegRead
  refine only_bind (quiet_targetSpace env space) ?_
  intro space
  refine only_bind (only_byHandle space vm) ?_
  intro (r, v)
  exact only_bind (only_emit trivial) fun _ => only_pure _

theorem quiet_vmRegWrite (env : CallEnv) (space vm : ℕ) : Only Quiet (vmRegWrite env space vm) := by
  unfold vmRegWrite
  refine only_bind (quiet_targetSpace env space) ?_
  intro space
  refine only_bind (only_byHandle space vm) ?_
  intro (r, v)
  refine only_bind (only_emit trivial) ?_
  intro _
  exact only_bind (quiet_use .vm v) fun _ => only_pure _

theorem quiet_x86Port (env : CallEnv) (space size : ℕ) : Only Quiet (x86Port env space size) := by
  unfold x86Port
  refine only_bind (quiet_targetSpace env space) ?_
  intro _
  split
  · exact only_pure _
  · exact only_stop _

/-- The calls whose arguments point to a message. -/
def HasMessage : SyscallArgs → Prop
  | .ipcSend .. | .ipcCall .. | .ipcReply .. | .ipcReceive .. => True
  | _ => False

/-- The other handlers touch nothing but their arguments. -/
theorem quiet_dispatch {args : SyscallArgs} (h : ¬ HasMessage args) :
    Only Quiet (dispatch env args) := by
  cases args with
  | ipcSend | ipcCall | ipcReply | ipcReceive => exact absurd trivial h
  | debugLog => exact only_pure _
  | unknown => exact only_stop _
  | memOwn target | taskCreate target | spaceCreate target | ipcCreateEndpoint target | vmCreate target =>
    exact only_bind (quiet_targetSpace env target) fun _ => only_effect _
  | map => exact quiet_map _ _ _ _ _ _ _
  | assetRelease => exact quiet_assetRelease _ _ _ _ _
  | taskLaunch => exact quiet_taskLaunch _ _ _
  | assetMove => exact quiet_assetMove _ _ _ _
  | ipcConnect => exact quiet_ipcConnect _ _ _ _
  | assetInfo => exact quiet_assetInfo _ _ _ _
  | vmMappingCreate => exact quiet_vmMappingCreate _ _ _ _
  | vmRegRead => exact quiet_vmRegRead _ _ _
  | vmRegWrite => exact quiet_vmRegWrite _ _ _
  | x86Port => exact quiet_x86Port _ _ _

end QuietHandlers

/-! ### Messages -/

/-- The bytes of the arguments, which are checked before the handler runs. -/
def InArgs (env : CallEnv) (size b : ℕ) : Prop := env.arg1 ≤ b ∧ b < env.arg1 + size

variable {env : CallEnv} {s : Objects} {size : ℕ}

/-- A range that is longer than the arguments is not inside them. -/
theorem not_inArgs {addr n : ℕ} (hn : size < n) :
    ¬ ∀ b, addr ≤ b → b < addr + n → InArgs env size b := by
  intro h
  have hfirst := h addr le_rfl (by omega)
  have hlast := h (addr + n - 1) (by omega) (by omega)
  unfold InArgs at hfirst hlast
  omega

theorem not_validated_touchMessage (hsize : size < 108) (msg : ℕ) (m : IpcSend.IpcMessage)
    {β : Type} (f : Unit → Sys β) : ¬ Validated (InArgs env size) ((touchMessage msg m >>= f) s).trace := by
  intro h
  exact not_inArgs hsize h.1

theorem not_validated_update (hsize : size < 96) (source target : SpacePtr) (msg : ℕ)
    (ds : List IpcSend.IpcData) {β : Type} (f : Except String Unit × List IpcSend.IpcData → Sys β) :
    ¬ Validated (InArgs env size) ((Sys.updateInplaceMessage source target msg ds >>= f) s).trace := by
  intro h
  have htrace : (Sys.updateInplaceMessage source target msg ds s).trace = [.touched msg 96] := rfl
  cases hresult : (Sys.updateInplaceMessage source target msg ds s).result with
  | error t =>
    rw [bind_error hresult, htrace] at h
    exact not_inArgs hsize h.1
  | ok x =>
    rw [bind_ok hresult, htrace] at h
    exact not_inArgs hsize h.1

/-- A call that would touch its message is safe only if it does not find what it looks for. -/
theorem validated_found_iff {ε : Type} {lookup : Objects → Except SysStop ε} {f : ε → Sys ℕ}
    (hf : ∀ e, ¬ Validated (InArgs env size) (f e s).trace) :
    Validated (InArgs env size) ((reading lookup >>= f) s).trace ↔ ∀ e, lookup s ≠ .ok e := by
  rw [validated_bind_iff (reads_reading _) (only_reading _)]
  constructor
  · intro h e he
    exact hf e (h e he)
  · intro h e he
    exact absurd he (h e)

theorem validated_ipcSend_iff (hsize : size < 96) (source : SpacePtr) (c : AssetPtr) (msg : ℕ)
    (isCall : Bool) :
    Validated (InArgs env size) (Sys.ipcSend env source c msg isCall s).trace ↔ s.endpointOf c = none := by
  unfold Sys.ipcSend
  rw [validated_found_iff]
  · cases s.endpointOf c with
    | none => simp
    | some e => simp
  · intro e h
    exact not_validated_update hsize _ _ _ _ _ h.2

theorem validated_ipcSendAsync_iff (hsize : size < 96) (source : SpacePtr) (c : AssetPtr) (msg : ℕ) :
    Validated (InArgs env size) (Sys.ipcSendAsync env source c msg s).trace ↔ s.endpointOf c = none := by
  unfold Sys.ipcSendAsync
  rw [validated_found_iff]
  · cases s.endpointOf c with
    | none => simp
    | some e => simp
  · intro e h
    exact not_validated_update hsize _ _ _ _ _ h.2

/-- Only an empty queue leaves the message alone, but for one byte. -/
theorem validated_deliver_iff (space : SpacePtr) (endpoint : AssetPtr) (target : ℕ)
    (rest : Ipc.Endpoint IpcSend.IpcMessage → SysAsset)
    (out : Option (Ipc.Received IpcSend.IpcMessage × Ipc.Endpoint IpcSend.IpcMessage)) :
    Validated (InArgs env 40) (deliver space endpoint target rest out s).trace ↔
      DeliversNothing env target out := by
  unfold deliver DeliversNothing
  split
  · exact Iff.rfl
  · rw [emit_bind]
    constructor
    · intro h
      exact h.1 (target + 106) le_rfl (Nat.lt_succ_self _)
    · intro h
      refine ⟨fun b hb hb' => ?_, trivial⟩
      have : b = target + 106 := by omega
      exact this ▸ h
  · exact iff_of_false (not_validated_touchMessage (by decide) target _ _) id
  · exact Iff.rfl
  · exact iff_of_false (not_validated_touchMessage (by decide) target _ _) id
  · exact iff_of_false (not_validated_touchMessage (by decide) target _ _) id

/-- The part of a receive that comes after the lookup of the queues. -/
theorem validated_received_iff (space : SpacePtr) (e : AssetPtr) (target : ℕ) (async : Bool)
    (rest : Ipc.Endpoint IpcSend.IpcMessage → SysAsset) (queues : Ipc.Endpoint IpcSend.IpcMessage) :
    Validated (InArgs env 40)
      ((if async then deliver space e target rest queues.receiveAsync
        else if queues.hasMessage || env.signaled then
          deliver space e target rest (queues.receive env.signaled)
        else stop .blocked : Sys ℕ) s).trace ↔
      DeliversNothing env target (received env async queues) := by
  unfold received
  cases async with
  | true => exact validated_deliver_iff space e target rest _
  | false =>
    cases queues.hasMessage || env.signaled with
    | true => exact validated_deliver_iff space e target rest _
    | false => exact Iff.rfl

theorem validated_ipcReceive_iff (space : SpacePtr) (e : AssetPtr) (target : ℕ) (async : Bool) :
    Validated (InArgs env 40) (Sys.ipcReceive env space e target async s).trace ↔
      ∀ owner uuid lastPort queues, s.assets e = some (.ipcEndpoint owner uuid lastPort queues) →
        DeliversNothing env target (received env async queues) := by
  unfold Sys.ipcReceive
  rw [validated_bind_iff (reads_reading _) (only_reading _)]
  constructor
  · intro h owner uuid lastPort queues he
    have hrest := h (owner, uuid, lastPort, queues) (by simp [he])
    exact (validated_received_iff space e target async _ queues).mp hrest
  · intro h (owner, uuid, lastPort, queues) hread
    have he : s.assets e = some (.ipcEndpoint owner uuid lastPort queues) := by
      rw [reading_apply] at hread
      dsimp only at hread
      split at hread
      · rename_i he
        simp only [Except.ok.injEq, Prod.mk.injEq] at hread
        obtain ⟨rfl, rfl, rfl, rfl⟩ := hread
        exact he
      · cases hread
    exact (validated_received_iff space e target async _ queues).mpr (h owner uuid lastPort queues he)

/-! ### The handlers with a message -/

/-- A typed lookup, in the space a call names. -/
theorem validated_lookup_iff {β : Type} {space handle : ℕ} {kind : ObjectKind} {C : ℕ → Prop}
    {f : SpacePtr → AssetRef × AssetPtr → Sys β} {P : AssetPtr → Prop}
    (hf : ∀ space' x, Validated C (f space' x s).trace ↔ P x.2)
    (hP : ∀ a, s.kindOf a ≠ some kind → P a) :
    Validated C ((targetSpace env space >>= fun space' =>
      byHandleAs kind space' handle >>= fun x => use kind x.2 >>= fun _ => f space' x) s).trace ↔
      ∀ a, namedAsset env s space handle = some a → P a := by
  rw [validated_bind_iff (reads_targetSpace env space) (quiet_targetSpace env space), ← forall_named_iff]
  refine forall₂_congr fun space' _ => ?_
  rw [validated_bind_iff (reads_byHandleAs kind space' handle) (quiet_byHandleAs kind space' handle)]
  have huse : ∀ x, Validated C ((use kind x.2 >>= fun _ => f space' x) s).trace ↔ P x.2 := by
    intro x
    rw [validated_bind_iff (reads_use kind x.2) (quiet_use kind x.2)]
    exact ⟨fun h => (hf space' x).mp (h () rfl), fun h _ _ => (hf space' x).mpr h⟩
  constructor
  · intro h a ha
    obtain ⟨hnone, -⟩ | ⟨r, b, hb, -, hresult⟩ := byHandleAs_cases kind space' handle s
    · rw [hnone] at ha
      cases ha
    · rw [hb, Option.some.injEq] at ha
      subst ha
      by_cases hkind : s.kindOf b = some kind
      · rw [if_pos hkind] at hresult
        exact (huse (r, b)).mp (h (r, b) hresult)
      · exact hP b hkind
  · intro h x hx
    exact (huse x).mpr (h x.2 (byHandleAs_ok hx).1)

theorem endpointOf_of_kind {c : AssetPtr} (hc : s.kindOf c ≠ some .ipcConnection) :
    s.endpointOf c = none := by
  unfold Objects.endpointOf
  split
  · rename_i hx
    exact absurd (by simp [Objects.kindOf, hx, SysAsset.kind]) hc
  · rfl

theorem replySpace_of_kind {r : AssetPtr} (hr : s.kindOf r ≠ some .ipcReturnTask) :
    s.replySpace r = none := by
  unfold Objects.replySpace
  split
  · rename_i hx
    exact absurd (by simp [Objects.kindOf, hx, SysAsset.kind]) hr
  · rfl

theorem validated_send_iff (space : ℕ) (async : Bool) (connection message : ℕ) :
    Validated (InArgs env 32) (send env space async connection message s).trace ↔
      ∀ c, namedAsset env s space connection = some c → s.endpointOf c = none := by
  apply validated_lookup_iff
  · intro space' x
    cases async with
    | true => exact validated_ipcSendAsync_iff (by decide) space' x.2 message
    | false => exact validated_ipcSend_iff (by decide) space' x.2 message false
  · intro c hc
    exact endpointOf_of_kind hc

theorem validated_ipcCall_iff (space connection message : ℕ) :
    Validated (InArgs env 24) (ipcCall env space connection message s).trace ↔
      ∀ c, namedAsset env s space connection = some c → s.endpointOf c = none := by
  apply validated_lookup_iff
  · intro space' x
    exact validated_ipcSend_iff (by decide) space' x.2 message true
  · intro c hc
    exact endpointOf_of_kind hc

theorem validated_ipcReply_iff (space returnTask message : ℕ) :
    Validated (InArgs env 24) (ipcReply env space returnTask message s).trace ↔
      ∀ r, namedAsset env s space returnTask = some r → s.replySpace r = none := by
  apply validated_lookup_iff
  · intro space' (r, a)
    rw [validated_found_iff]
    · cases s.replySpace a with
      | none => simp
      | some owner => simp
    · intro owner
      exact not_validated_update (by decide) _ _ _ _ _
  · intro r hr
    exact replySpace_of_kind hr

/-- What `ksyscall_receive` does with the asset it finds. -/
theorem validated_endpoint_iff (space : SpacePtr) (e : AssetPtr) (target : ℕ) (async : Bool) :
    Validated (InArgs env 40)
      ((match s.kindOf e with
        | some .signalEndpoint => do
          convert .signalEndpoint e
          use .signalEndpoint e
          signalAwait env space e (!async)
        | some .ipcEndpoint => do
          convert .ipcEndpoint e
          use .ipcEndpoint e
          Sys.ipcReceive env space e target async
        | _ => stop (.error "invalid endpoint kind") : Sys ℕ) s).trace ↔
      ∀ owner uuid lastPort queues, s.assets e = some (.ipcEndpoint owner uuid lastPort queues) →
        DeliversNothing env target (received env async queues) := by
  by_cases hkind : s.kindOf e = some .ipcEndpoint
  · rw [hkind]
    exact validated_ipcReceive_iff space e target async
  · refine iff_of_true ?_ ?_
    · apply validated_of_only
      split
      · refine only_bind (only_emit trivial) ?_
        intro _
        exact only_bind (quiet_use _ e) fun _ => quiet_signalAwait _ _ _ _
      · rename_i hipc
        exact absurd hipc hkind
      · exact only_stop _
    · intro owner uuid lastPort queues he
      exact absurd (by simp [Objects.kindOf, he, SysAsset.kind]) hkind

theorem validated_receive_iff (space endpoint : ℕ) (async : Bool) (target : ℕ) :
    Validated (InArgs env 40) (receive env space endpoint async target s).trace ↔
      (space ≠ internalSpace → ∀ e owner uuid lastPort queues, namedAsset env s space endpoint = some e →
        s.assets e = some (.ipcEndpoint owner uuid lastPort queues) →
          DeliversNothing env target (received env async queues)) := by
  unfold receive
  by_cases hspace : space = internalSpace
  · have hquiet : Only Quiet (receiveInternal env endpoint async) :=
      only_bind (only_reading _) fun _ => quiet_signalAwait _ _ _ _
    simp only [hspace, if_true, ne_eq, not_true_eq_false, false_implies, iff_true]
    exact validated_of_only hquiet
  · rw [if_neg hspace]
    simp only [ne_eq, hspace, not_false_eq_true, true_implies]
    rw [validated_bind_iff (reads_targetSpace env space) (quiet_targetSpace env space)]
    have hreorder : (∀ e owner uuid lastPort queues, namedAsset env s space endpoint = some e →
          s.assets e = some (.ipcEndpoint owner uuid lastPort queues) →
            DeliversNothing env target (received env async queues)) ↔
        ∀ e, namedAsset env s space endpoint = some e → ∀ owner uuid lastPort queues,
          s.assets e = some (.ipcEndpoint owner uuid lastPort queues) →
            DeliversNothing env target (received env async queues) :=
      ⟨fun h e he owner uuid lastPort queues => h e owner uuid lastPort queues he,
        fun h e owner uuid lastPort queues he => h e he owner uuid lastPort queues⟩
    rw [hreorder, ← forall_named_iff]
    refine forall₂_congr fun space' _ => ?_
    rw [validated_bind_iff (reads_reading _) (only_reading _)]
    cases he : (s.spaces space').assetAt endpoint with
    | none => simp [he]
    | some e =>
      simp only [reading_apply, he, Except.ok.injEq, Option.some.injEq, forall_eq']
      rw [validated_bind_iff (reads_reading _) (only_reading _)]
      simp only [reading_apply, Except.ok.injEq, forall_eq']
      exact validated_endpoint_iff space' e target async

/-! ### Every call -/

/-- The arguments are checked first. -/
theorem validated_checked_iff {size : ℕ} {p : Sys ℕ} :
    Validated (fun _ => False) ((syscallCheckPtr env size >>= fun _ =>
      emit (.touched env.arg1 size) >>= fun _ => p) s).trace ↔
      ((syscallCheckPtr env size s).result = .ok () → Validated (InArgs env size) (p s).trace) := by
  obtain ⟨t, ht, htrace⟩ | ⟨hok, htrace⟩ := check_cases env size s
  · rw [bind_error ht, htrace, ht]
    simp [Validated]
  · rw [bind_ok hok, htrace, reads_check env size s, hok]
    simp only [emit_bind, List.singleton_append, Validated, false_or, true_implies]
    exact ⟨fun h => h.2, fun h => ⟨fun b hb hb' => ⟨hb, hb'⟩, h⟩⟩

/-- The caller has made an endpoint, and a connection to it with the handle 18. -/
def connected : Objects :=
  (syscallHandle rootEnv (.ipcConnect 0 false 17)
    (syscallHandle rootEnv (.ipcCreateEndpoint 0 false false) rootObjects).state).state

end WingOS
