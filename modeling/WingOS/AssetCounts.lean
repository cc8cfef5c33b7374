/-
# The counts of the assets

`Asset::ref_count` and the `AssetRef` values that are to account for it
(`kernel/generic/asset.cpp`, `asset_types.hpp`, `space.hpp`): the entries of
the tables, the references inside other assets (`physical_mem`,
`connection_to`, `target_message_space`, `target`, `endpoint`) and those of the
registry of servers. A copy of an `AssetRef` owns, its destructor drops, and
the last one gone deletes the asset with the references in it.

The locals of an operation are gone when it returns; the operations here are
complete ones, and an `ipc_call` comes with the `ipc_receive` and the
`ipc_reply` that complete it. What an operation needs from the physical memory
or the page tables is its `Outcome`. `none` is an operation that does not
return, or one on a space that is not there any more.

`create_ipc_endpoint`, `create_ipc_connection`, `create_ipc_return_task`,
`create_signal_endpoint` and `create_attached_signal` own the new asset once
more than they refer to it. Memories and mappings are counted right: the counts
are exact if and only if none of the five has made an asset
(`counts_exact_iff`).

Key definitions: `RefState`, `RefOp`, `RefState.step`, `RefState.Exact`, `RefState.Clean`.
Key theorems: `RefState.goes_step`, `counts_exact_iff`.
-/
import WingOS.Lib.RefCount
import WingOS.Lib.Run
import WingOS.IpcSend

namespace WingOS

inductive RefKind
  | memory | mapping | task | space | ipcEndpoint | ipcConnection | ipcReturnTask
  | signalEndpoint | signalAttached
  deriving DecidableEq

/-- Where an `AssetRef` is kept. An asset has at most one in a field. -/
inductive RefHolder
  | entry (space : SpacePtr) (handle : ℕ)
  | field (asset : AssetPtr)
  | registered (server : ℕ)
  deriving DecidableEq

/-- The asset whose deletion runs the destructor of the reference. -/
def RefHolder.owner : RefHolder → Option AssetPtr
  | .entry space _ => some space
  | .field asset => some asset
  | .registered _ => none

structure RefState where
  store : Store AssetPtr RefHolder RefKind
  nextPtr : AssetPtr
  allocUid : SpacePtr → ℕ
  /-- `Task::_space_owner`. -/
  spaceOwner : AssetPtr → SpacePtr
  spaceId : ℕ
  nextServer : ℕ

/-- How the parts of a creation end that are not about references: the
parameters are refused, a later step fails, or all is done. -/
inductive Outcome
  | refused | failed | done

namespace RefState

open IpcSend (IpcData)

def kindOf (s : RefState) (a : AssetPtr) : Option RefKind := (s.store.cells a).map Cell.kind

def find (s : RefState) (h : RefHolder) : Option AssetPtr :=
  (s.store.refs.find? fun r => r.1 = h).map Prod.snd

/-- `Space::by_handle`. -/
def byHandle (s : RefState) (space : SpacePtr) (handle : ℕ) : Option AssetPtr :=
  s.find (.entry space handle)

/-- `Space::by_handle<T>`. -/
def byHandleAs (s : RefState) (space : SpacePtr) (handle : ℕ) (kind : RefKind) : Option AssetPtr :=
  (s.byHandle space handle).filter fun a => s.kindOf a = some kind

/-- `Asset::own`. -/
def own (s : RefState) (a : AssetPtr) : RefState := { s with store := s.store.own a }

/-- `Asset::deref`. -/
def deref (s : RefState) (a : AssetPtr) : Option RefState :=
  (s.store.drop RefHolder.owner (s.nextPtr + 1) a).map fun store => { s with store }

/-- A copy of an `AssetRef` is kept. -/
def hold (s : RefState) (h : RefHolder) (a : AssetPtr) : RefState :=
  { s with store := (s.store.own a).put h a }

/-- `allocate_asset` and `add_asset`, for the asset at `nextPtr`. -/
def allocateAsset (s : RefState) (space : SpacePtr) (kind : RefKind) : RefState :=
  { s with
    store := (s.store.setCell s.nextPtr (some ⟨kind, 1⟩)).put
      (.entry space (s.allocUid space + 1)) s.nextPtr
    allocUid := Function.update s.allocUid space (s.allocUid space + 1)
    nextPtr := s.nextPtr + 1 }

/-- `_asset_remove`, and the reference it returns is dropped. -/
def assetRemove (s : RefState) (space : SpacePtr) (handle : ℕ) : Option RefState :=
  match s.byHandle space handle with
  | none => none
  | some a => deref { s with store := s.store.take (.entry space handle) a } a

def createMemory (s : RefState) (space : SpacePtr) : Outcome → Option RefState
  | .refused => some s
  | .failed => (s.allocateAsset space .memory).assetRemove space (s.allocUid space + 1)
  | .done => some (s.allocateAsset space .memory)

/-- `Space::create_mapping`. A refused mapping stays in the table. -/
def createMapping (s : RefState) (space : SpacePtr) (memory : ℕ) (outcome : Outcome) : Option RefState :=
  match s.byHandleAs space memory .memory with
  | none => some s
  | some m =>
    let s' := (s.allocateAsset space .mapping).hold (.field s.nextPtr) m
    match outcome with
    | .refused | .done => some s'
    | .failed => s'.assetRemove space (s.allocUid space + 1)

def createTask (s : RefState) (space : SpacePtr) (initialized : Bool) : Option RefState :=
  let s' := (s.allocateAsset space .task).own s.nextPtr
  let s' := { s' with spaceOwner := Function.update s.spaceOwner s.nextPtr space }
  if initialized then some s' else s'.assetRemove space (s.allocUid space + 1)

def createSpace (s : RefState) (space : SpacePtr) (created : Bool) : Option RefState :=
  let s' := s.allocateAsset space .space
  if created then
    let s' := { s' with
      spaceId := s.spaceId + 1
      allocUid := Function.update s'.allocUid s.nextPtr (16 + 10000 * s.spaceId) }
    some (s'.hold (.entry s.nextPtr 0) s.nextPtr)
  else s'.assetRemove space (s.allocUid space + 1)

/-- The number of an endpoint: `publish_server`, or `get_next_ipc_server_handle`
without a registration. -/
def numberServer (s : RefState) (endpoint : AssetPtr) (publish isRoot : Bool) : RefState :=
  if publish then
    if isRoot then s.hold (.registered 0) endpoint
    else { s.hold (.registered s.nextServer) endpoint with nextServer := s.nextServer + 1 }
  else { s with nextServer := s.nextServer + 1 }

def createIpcEndpoint (s : RefState) (space : SpacePtr) (publish isRoot : Bool) : RefState :=
  (((s.allocateAsset space .ipcEndpoint).hold (.field s.nextPtr) space).numberServer s.nextPtr publish
    isRoot).own s.nextPtr

def createIpcConnection (s : RefState) (space : SpacePtr) (endpoint : AssetPtr) : RefState :=
  ((s.allocateAsset space .ipcConnection).own s.nextPtr).hold (.field s.nextPtr) endpoint

def createIpcReturnTask (s : RefState) (space : SpacePtr) (task : AssetPtr) : RefState :=
  ((s.allocateAsset space .ipcReturnTask).hold (.field s.nextPtr) task).own s.nextPtr

def createSignalEndpoint (s : RefState) (space : SpacePtr) : RefState :=
  (s.allocateAsset space .signalEndpoint).own s.nextPtr

def createAttachedSignal (s : RefState) (space : SpacePtr) (attachedTo : AssetPtr) : RefState :=
  ((s.allocateAsset space .signalAttached).hold (.field s.nextPtr) attachedTo).own s.nextPtr

/-- `Space::asset_move` of the asset under a handle of `source`. -/
def assetMove (s : RefState) (source target : SpacePtr) (handle : ℕ) (a : AssetPtr) : RefState :=
  { s with
    store := (s.store.take (.entry source handle) a).put (.entry target (s.allocUid target + 1)) a
    allocUid := Function.update s.allocUid target (s.allocUid target + 1) }

/-- `Space::asset_copy`. It locks the asset, then the target: a space is not
copied to itself. -/
def assetCopy (s : RefState) (target : SpacePtr) (a : AssetPtr) : Option RefState :=
  if a = target then none
  else
    some { s.hold (.entry target (s.allocUid target + 1)) a with
      allocUid := Function.update s.allocUid target (s.allocUid target + 1) }

/-- `update_inplace_message`, and if it succeeds. -/
def updateInplaceMessage (source target : SpacePtr) :
    List IpcData → RefState → Option (Bool × RefState)
  | [], s => some (true, s)
  | d :: ds, s =>
    if d.isAsset then
      match s.byHandle source d.value with
      | none => some (false, s)
      | some a =>
        if !d.copyAsset then updateInplaceMessage source target ds (s.assetMove source target d.value a)
        else (s.assetCopy target a).bind (updateInplaceMessage source target ds)
    else updateInplaceMessage source target ds s

/-- `ipc_send`: the endpoint the message is queued at, unless the send fails. -/
def ipcSend (s : RefState) (source : SpacePtr) (connection : ℕ) (arguments : List IpcData) :
    Option (Option AssetPtr × RefState) :=
  match s.byHandleAs source connection .ipcConnection with
  | none => some (none, s)
  | some c =>
    match s.find (.field c) with
    | none => none
    | some endpoint =>
      match s.find (.field endpoint) with
      | none => none
      | some target =>
        (updateInplaceMessage source target arguments s).map fun (ok, s) =>
          (if ok then some endpoint else none, s)

/-- `ipc_reply`: the assets of the answer go to the space of the task that
waits, then the return task is released. -/
def ipcReply (s : RefState) (space : SpacePtr) (returnTask : ℕ) (arguments : List IpcData) :
    Option RefState :=
  match s.byHandleAs space returnTask .ipcReturnTask with
  | none => some s
  | some r =>
    match s.find (.field r) with
    | none => none
    | some task =>
      if s.kindOf (s.spaceOwner task) = some .space then
        (updateInplaceMessage space (s.spaceOwner task) arguments s).bind fun (ok, s) =>
          if ok then s.assetRemove space returnTask else some s
      else none

/-- A task calls, a task that receives from the same endpoint in `receiver`
gets a return task for it, and replies. -/
def ipcRound (s : RefState) (callee : AssetPtr) (source : SpacePtr) (connection : ℕ)
    (arguments : List IpcData) (receiver : SpacePtr) (endpoint : ℕ) (reply : List IpcData) :
    Option RefState :=
  (s.ipcSend source connection arguments).bind fun (sent, s) =>
    match sent with
    | none => some s
    | some e =>
      if s.byHandle receiver endpoint = some e ∧ s.kindOf callee = some .task then
        (s.createIpcReturnTask receiver callee).ipcReply receiver (s.allocUid receiver + 1) reply
      else none

end RefState

/-- The operations, on the spaces they are called for. What is under a handle
is looked up first, as the system calls do. -/
inductive RefOp
  | createMemory (space : SpacePtr) (outcome : Outcome)
  | createMapping (space : SpacePtr) (memory : ℕ) (outcome : Outcome)
  | createTask (space : SpacePtr) (initialized : Bool)
  | createSpace (space : SpacePtr) (created : Bool)
  | createIpcEndpoint (space : SpacePtr) (publish isRoot : Bool)
  | createIpcConnection (space : SpacePtr) (endpoint : ℕ)
  | connectByAddress (space : SpacePtr) (server : ℕ)
  | createIpcReturnTask (space : SpacePtr) (task : ℕ)
  | createSignalEndpoint (space : SpacePtr)
  | createAttachedSignal (space : SpacePtr) (endpoint : ℕ)
  | assetMove (source target : SpacePtr) (handle : ℕ)
  | assetCopy (source target : SpacePtr) (handle : ℕ)
  | assetRelease (space : SpacePtr) (handle : ℕ)
  | ipcRound (callee : AssetPtr) (source : SpacePtr) (connection : ℕ)
      (arguments : List IpcSend.IpcData) (receiver : SpacePtr) (endpoint : ℕ)
      (reply : List IpcSend.IpcData)

def RefOp.spaces : RefOp → List SpacePtr
  | .createMemory space _ | .createMapping space _ _ | .createTask space _ | .createSpace space _
  | .createIpcEndpoint space _ _ | .createIpcConnection space _ | .connectByAddress space _
  | .createIpcReturnTask space _ | .createSignalEndpoint space | .createAttachedSignal space _
  | .assetRelease space _ => [space]
  | .assetMove source target _ | .assetCopy source target _ => [source, target]
  | .ipcRound _ source _ _ receiver _ _ => [source, receiver]

namespace RefState

open IpcSend (IpcData)

def perform (s : RefState) : RefOp → Option RefState
  | .createMemory space outcome => s.createMemory space outcome
  | .createMapping space memory outcome => s.createMapping space memory outcome
  | .createTask space initialized => s.createTask space initialized
  | .createSpace space created => s.createSpace space created
  | .createIpcEndpoint space publish isRoot => some (s.createIpcEndpoint space publish isRoot)
  | .createIpcConnection space endpoint =>
    match s.byHandleAs space endpoint .ipcEndpoint with
    | none => some s
    | some e => some (s.createIpcConnection space e)
  | .connectByAddress space server =>
    match s.find (.registered server) with
    | none => some s
    | some e => some (s.createIpcConnection space e)
  | .createIpcReturnTask space task =>
    match s.byHandleAs space task .task with
    | none => some s
    | some t => some (s.createIpcReturnTask space t)
  | .createSignalEndpoint space => some (s.createSignalEndpoint space)
  | .createAttachedSignal space endpoint =>
    match s.byHandleAs space endpoint .signalEndpoint with
    | none => some s
    | some e => some (s.createAttachedSignal space e)
  | .assetMove source target handle =>
    match s.byHandle source handle with
    | none => some s
    | some a => some (s.assetMove source target handle a)
  | .assetCopy source target handle =>
    match s.byHandle source handle with
    | none => some s
    | some a => s.assetCopy target a
  | .assetRelease space handle =>
    -- `Asset::release` makes an empty reference and drops it
    match s.byHandle space handle with
    | none => some s
    | some _ => s.assetRemove space handle
  | .ipcRound callee source connection arguments receiver endpoint reply =>
    s.ipcRound callee source connection arguments receiver endpoint reply

def step (s : RefState) (op : RefOp) : Option RefState :=
  if ∀ space ∈ op.spaces, s.kindOf space = some .space then s.perform op else none

/-- After `Space::create_root`: the root space, with its entry for itself. -/
def start : RefState where
  store :=
    { cells := Function.update (fun _ => none) 0 (some ⟨.space, 99999⟩)
      refs := [(.entry 0 0, 0)] }
  nextPtr := 1
  allocUid := Function.update (fun _ => 0) 0 16
  spaceOwner := fun _ => 0
  spaceId := 1
  nextServer := 16

/-- The kinds that are deleted with their last reference. -/
def counted : RefKind → Bool
  | .space | .task => false
  | _ => true

/-- The kinds whose creation owns the asset once more than it refers to it. -/
def overcounted : RefKind → Bool
  | .memory | .mapping | .space | .task => false
  | _ => true

/-- The counts are those of the references that exist. An asset with a
reference exists, one without is gone. -/
def Exact (s : RefState) : Prop :=
  (∀ a x, s.store.cells a = some x → counted x.kind = true →
    x.count = s.store.refsTo a ∧ 0 < s.store.refsTo a) ∧
  ∀ a, s.store.cells a = none → s.store.refsTo a = 0

/-- The spaces of the operation exist, and it copies no space to itself. -/
def Usable (s : RefState) (op : RefOp) : Prop :=
  (∀ space ∈ op.spaces, s.kindOf space = some .space) ∧
  match op with
  | .assetCopy source target handle => s.byHandle source handle ≠ some target
  | _ => True

/-- The step makes none of the five kinds of asset that are owned twice. -/
def Clean (s : RefState) : RefOp → Prop
  | .createIpcEndpoint _ _ _ | .createSignalEndpoint _ => False
  | .createIpcConnection space endpoint => s.byHandleAs space endpoint .ipcEndpoint = none
  | .connectByAddress _ server => s.find (.registered server) = none
  | .createIpcReturnTask space task => s.byHandleAs space task .task = none
  | .createAttachedSignal space endpoint => s.byHandleAs space endpoint .signalEndpoint = none
  | .ipcRound _ source connection _ _ _ _ => s.byHandleAs source connection .ipcConnection = none
  | _ => True

/-! ### What is counted without a reference -/

/-- The calls of `Asset::own` for an asset that no reference stands for. The
count of the root is set by hand. -/
def extraCount (a : AssetPtr) : RefKind → ℕ
  | .memory | .mapping => 0
  | .space => if a = 0 then 99998 else 0
  | _ => 1

def surplus (s : RefState) (a : AssetPtr) : ℕ := ((s.kindOf a).map (extraCount a)).getD 0

theorem extraCount_of_overcounted {k : RefKind} (hk : overcounted k = true) (a : AssetPtr) :
    extraCount a k = 1 := by
  cases k <;> simp_all [overcounted, extraCount]

theorem extraCount_of_counted {k : RefKind} (hk : counted k = true) (a : AssetPtr) :
    extraCount a k = if overcounted k = true then 1 else 0 := by
  cases k <;> simp_all [counted, overcounted, extraCount]

/-- The counts are exact but for what is in `hand`. -/
structure Counts (hand : AssetPtr → ℕ) (s : RefState) : Prop where
  exact : s.store.Exact hand
  below : ∀ a, s.nextPtr ≤ a → s.store.cells a = none
  root : 0 < s.nextPtr

def Inv (s : RefState) : Prop := s.Counts s.surplus

variable {s s' : RefState} {hand : AssetPtr → ℕ} {a b : AssetPtr} {space source target : SpacePtr}
  {handle : ℕ} {h : RefHolder} {k : RefKind}

theorem kindOf_ne_none : s.kindOf a ≠ none ↔ s.store.cells a ≠ none := by
  simp [kindOf]

@[simp] theorem kindOf_own (s : RefState) (a : AssetPtr) : (s.own a).kindOf = s.kindOf := by
  funext b
  by_cases hb : b = a
  · subst hb
    cases hx : s.store.cells b <;> simp [kindOf, own, Store.own, Store.setCell, hx]
  · simp [kindOf, own, Store.own, Store.setCell, hb]

@[simp] theorem kindOf_hold (s : RefState) (h : RefHolder) (a : AssetPtr) :
    (s.hold h a).kindOf = s.kindOf := by
  have := kindOf_own s a
  exact this

@[simp] theorem kindOf_numberServer (s : RefState) (a : AssetPtr) (publish isRoot : Bool) :
    (s.numberServer a publish isRoot).kindOf = s.kindOf := by
  cases publish with
  | false => rfl
  | true => cases isRoot <;> exact kindOf_hold s _ a

@[simp] theorem kindOf_allocateAsset (s : RefState) (space : SpacePtr) (k : RefKind) :
    (s.allocateAsset space k).kindOf = Function.update s.kindOf s.nextPtr (some k) := by
  funext b
  by_cases hb : b = s.nextPtr
  · subst hb
    simp [kindOf, allocateAsset, Store.setCell, Store.put]
  · simp [kindOf, allocateAsset, Store.setCell, Store.put, hb]

theorem find_mem (ha : s.find h = some a) : (h, a) ∈ s.store.refs := by
  unfold find at ha
  rw [Option.map_eq_some_iff] at ha
  obtain ⟨r, hr, rfl⟩ := ha
  have hmem := List.mem_of_find?_eq_some hr
  have hh : r.1 = h := by simpa using List.find?_some hr
  rw [← hh]
  exact hmem

theorem find_of_mem (hmem : (h, a) ∈ s.store.refs) : ∃ b, s.find h = some b := by
  have hsome : (s.store.refs.find? fun r => r.1 = h).isSome := by
    rw [List.find?_isSome]
    exact ⟨(h, a), hmem, by simp⟩
  obtain ⟨r, hr⟩ := Option.isSome_iff_exists.mp hsome
  exact ⟨r.2, by simp [find, hr]⟩

theorem byHandleAs_mem (ha : s.byHandleAs space handle k = some a) :
    (RefHolder.entry space handle, a) ∈ s.store.refs ∧ s.kindOf a = some k := by
  unfold byHandleAs at ha
  rw [Option.filter_eq_some_iff] at ha
  exact ⟨find_mem ha.1, by simpa using ha.2⟩

namespace Counts

theorem fresh (hs : s.Counts hand) : s.store.cells s.nextPtr = none := hs.below _ le_rfl

theorem lt_nextPtr (hs : s.Counts hand) (ha : s.store.cells a ≠ none) : a < s.nextPtr := by
  by_contra hlt
  exact ha (hs.below a (Nat.le_of_not_lt hlt))

theorem own (hs : s.Counts hand) (hkind : s.kindOf a ≠ none) :
    (s.own a).Counts (Function.update hand a (hand a + 1)) := by
  have ha := kindOf_ne_none.mp hkind
  refine ⟨hs.exact.own ha, fun b hb => ?_, hs.root⟩
  have hba : b ≠ a := ((hs.lt_nextPtr ha).trans_le hb).ne'
  have hsame : (s.own a).store.cells b = s.store.cells b := Function.update_of_ne hba _ _
  rw [hsame]
  exact hs.below b hb

theorem hold (hs : s.Counts hand) (ha : s.kindOf a ≠ none) (h : RefHolder) :
    (s.hold h a).Counts hand := by
  have hown := hs.own ha
  exact ⟨hown.exact.put, hown.below, hs.root⟩

theorem allocateAsset (hs : s.Counts hand) (space : SpacePtr) (k : RefKind) :
    (s.allocateAsset space k).Counts hand := by
  refine ⟨hs.exact.add hs.fresh k, fun b hb => ?_, Nat.succ_pos _⟩
  have hb' : s.nextPtr < b := hb
  have hsame : (s.allocateAsset space k).store.cells b = s.store.cells b :=
    Function.update_of_ne hb'.ne' _ _
  rw [hsame]
  exact hs.below b hb'.le

/-- The other parts of the state do not count. -/
theorem congr (hs : s.Counts hand) (hstore : s'.store = s.store) (hnext : s'.nextPtr = s.nextPtr) :
    s'.Counts hand := by
  refine ⟨hstore ▸ hs.exact, ?_, hnext ▸ hs.root⟩
  rw [hstore, hnext]
  exact hs.below

theorem take (hs : s.Counts hand) (hmem : (h, a) ∈ s.store.refs) :
    Counts (Function.update hand a (hand a + 1)) { s with store := s.store.take h a } :=
  ⟨hs.exact.take hmem, hs.below, hs.root⟩

/-- A reference in hand is dropped. Nothing that still counts as referenced is
deleted. -/
theorem deref (hs : s.Counts hand) (ha : 0 < hand a) (h : s.deref a = some s') :
    s'.Counts (Function.update hand a (hand a - 1)) ∧
      (∀ b k, s'.kindOf b = some k → s.kindOf b = some k) ∧
      ∀ b, 0 < Function.update hand a (hand a - 1) b → s'.kindOf b = s.kindOf b := by
  unfold RefState.deref at h
  rw [Option.map_eq_some_iff] at h
  obtain ⟨store, hdrop, rfl⟩ := h
  obtain ⟨hexact, hshrink⟩ := Store.exact_drop RefHolder.owner _ hand a _ _ hs.exact ha hdrop
  have hkind : ∀ b k, RefState.kindOf { s with store } b = some k → s.kindOf b = some k := by
    intro b k hk
    obtain ⟨x', hx', rfl⟩ := Option.map_eq_some_iff.mp hk
    obtain ⟨x, hx, hxk⟩ := hshrink b x' hx'
    simp [RefState.kindOf, hx, hxk]
  refine ⟨⟨hexact, fun b hb => ?_, hs.root⟩, hkind, fun b hb => ?_⟩
  · by_contra hne
    obtain ⟨x', hx'⟩ := Option.ne_none_iff_exists'.mp hne
    obtain ⟨x, hx, -⟩ := hshrink b x' hx'
    have hnone := hs.below b hb
    rw [hx] at hnone
    cases hnone
  · have hlive : RefState.kindOf { s with store } b ≠ none := by
      rw [kindOf_ne_none]
      intro hnone
      exact hb.ne' (hexact.gone b hnone).2
    obtain ⟨k, hk⟩ := Option.ne_none_iff_exists'.mp hlive
    rw [hk, hkind b k hk]

/-- A depth of `nextPtr + 1` is enough for every chain of deletions. -/
theorem deref_some (hs : s.Counts hand) (ha : 0 < hand a) : ∃ s', s.deref a = some s' := by
  have hwithin : Store.Within (Finset.range s.nextPtr) s.store :=
    fun b hb => Finset.mem_range.mpr (hs.lt_nextPtr hb)
  obtain ⟨store, hstore⟩ := Store.drop_some RefHolder.owner (s.nextPtr + 1) (Finset.range s.nextPtr)
    (by rw [Finset.card_range]; exact Nat.lt_succ_self _) hand a s.store hs.exact ha hwithin
  exact ⟨{ s with store }, by simp [RefState.deref, hstore]⟩

end Counts

/-! ### One operation -/

/-- What an operation does: it keeps the counts, it deletes nothing that is
owned twice, and all it makes is as `made` says. -/
structure Goes (made : RefKind → Prop) (s s' : RefState) : Prop where
  inv : s'.Inv
  kept : ∀ b k, overcounted k = true → s.kindOf b = some k → s'.kindOf b = some k
  new : ∀ b k, s'.kindOf b = some k → s.kindOf b = some k ∨ made k

variable {made : RefKind → Prop}

theorem Goes.refl (hs : s.Inv) : Goes made s s := ⟨hs, fun _ _ _ h => h, fun _ _ h => .inl h⟩

theorem Goes.trans {s₁ : RefState} (h : Goes made s s₁) (h' : Goes made s₁ s') : Goes made s s' := by
  refine ⟨h'.inv, fun b k hk hb => h'.kept b k hk (h.kept b k hk hb), fun b k hb => ?_⟩
  apply (h'.new b k hb).elim
  · exact h.new b k
  · exact Or.inr

/-- The kinds are the same. -/
theorem Goes.of_kindOf (hs : s'.Counts s.surplus) (hkind : s'.kindOf = s.kindOf) : Goes made s s' := by
  have hsurplus : s'.surplus = s.surplus := by
    funext a
    simp only [surplus, hkind]
  refine ⟨?_, fun b k _ hb => ?_, fun b k hb => ?_⟩
  · unfold Inv
    rw [hsurplus]
    exact hs
  · rw [hkind]
    exact hb
  · rw [hkind] at hb
    exact .inl hb

theorem Inv.surplus_fresh (hs : s.Inv) : s.surplus s.nextPtr = 0 := by
  simp [surplus, kindOf, hs.fresh]

/-- One asset is new, and counted as its kind is. -/
theorem Goes.of_new (hs : s.Inv) (hk : made k)
    (hcounts : s'.Counts (Function.update s.surplus s.nextPtr (extraCount s.nextPtr k)))
    (hkind : s'.kindOf = Function.update s.kindOf s.nextPtr (some k)) : Goes made s s' := by
  have hsurplus : s'.surplus = Function.update s.surplus s.nextPtr (extraCount s.nextPtr k) := by
    funext a
    by_cases ha : a = s.nextPtr
    · subst ha
      simp [surplus, hkind]
    · simp [surplus, hkind, ha]
  refine ⟨?_, fun b k' _ hb => ?_, fun b k' hb => ?_⟩
  · unfold Inv
    rw [hsurplus]
    exact hcounts
  · have hne : b ≠ s.nextPtr := by
      intro hne
      simp [kindOf, hne, hs.fresh] at hb
    rw [hkind, Function.update_of_ne hne]
    exact hb
  · by_cases hne : b = s.nextPtr
    · subst hne
      rw [hkind, Function.update_self, Option.some.injEq] at hb
      exact .inr (hb ▸ hk)
    · rw [hkind, Function.update_of_ne hne] at hb
      exact .inl hb

/-- A dropped reference, of an asset with one in hand. -/
theorem goes_deref (hs : s.Counts (Function.update s.surplus a (s.surplus a + 1)))
    (h : s.deref a = some s') : Goes made s s' := by
  have hpos : 0 < Function.update s.surplus a (s.surplus a + 1) a := by simp
  obtain ⟨hcounts, hnew, hkept⟩ := hs.deref hpos h
  have hback : Function.update (Function.update s.surplus a (s.surplus a + 1)) a
      (Function.update s.surplus a (s.surplus a + 1) a - 1) = s.surplus := by
    simp
  rw [hback] at hcounts hkept
  have hsurplus : s'.surplus = s.surplus := by
    funext b
    by_cases hb : s'.kindOf b = none
    · have hzero := (hcounts.exact.gone b (by simpa [kindOf] using hb)).2
      rw [hzero]
      simp [surplus, hb]
    · obtain ⟨k, hk⟩ := Option.ne_none_iff_exists'.mp hb
      simp [surplus, hk, hnew b k hk]
  refine ⟨?_, fun b k hk hb => ?_, fun b k hb => .inl (hnew b k hb)⟩
  · unfold Inv
    rw [hsurplus]
    exact hcounts
  · rw [hkept b, hb]
    simp [surplus, hb, extraCount_of_overcounted hk]

/-- `_asset_remove` of an asset that is there. -/
theorem goes_assetRemove (hs : s.Inv) (h : s.assetRemove space handle = some s') : Goes made s s' := by
  unfold assetRemove at h
  cases ha : s.byHandle space handle with
  | none => simp [ha] at h
  | some a =>
    rw [ha] at h
    have htake := hs.take (find_mem ha)
    have hgoes : Goes made { s with store := s.store.take (.entry space handle) a } s' :=
      goes_deref htake h
    exact ⟨hgoes.inv, hgoes.kept, hgoes.new⟩

theorem assetRemove_some (hs : s.Inv) (ha : s.byHandle space handle = some a) :
    ∃ s', s.assetRemove space handle = some s' := by
  unfold assetRemove
  rw [ha]
  exact (hs.take (find_mem ha)).deref_some (by simp)

theorem Inv.kindOf_ne_none (hs : s.Inv) (ha : s.find h = some a) : s.kindOf a ≠ none :=
  RefState.kindOf_ne_none.mpr (hs.exact.live_of_mem (find_mem ha))

/-- What was there before an allocation still is. -/
theorem kindOf_allocated_ne_none (ha : s.kindOf a ≠ none) :
    (s.allocateAsset space k).kindOf a ≠ none := by
  rw [kindOf_allocateAsset]
  by_cases hne : a = s.nextPtr
  · simp [hne]
  · rw [Function.update_of_ne hne]
    exact ha

theorem kindOf_new_ne_none : (s.allocateAsset space k).kindOf s.nextPtr ≠ none := by simp

/-- A new asset with a reference for each time it is owned. -/
theorem Inv.counts_new (hs : s.Inv) (space : SpacePtr) (k : RefKind) :
    (s.allocateAsset space k).Counts (Function.update s.surplus s.nextPtr 0) := by
  have hhand : Function.update s.surplus s.nextPtr 0 = s.surplus := by
    rw [← hs.surplus_fresh, Function.update_eq_self]
  rw [hhand]
  exact hs.allocateAsset space k

/-- The creation owns it once more. -/
theorem Counts.own_new (hs : s'.Counts (Function.update hand a 0)) (ha : s'.kindOf a ≠ none) :
    (s'.own a).Counts (Function.update hand a 1) := by
  have hown := hs.own ha
  rw [Function.update_self, Function.update_idem] at hown
  exact hown

theorem Counts.numberServer (hs : s.Counts hand) (ha : s.kindOf a ≠ none) (publish isRoot : Bool) :
    (s.numberServer a publish isRoot).Counts hand := by
  cases publish with
  | false => exact hs.congr rfl rfl
  | true =>
    cases isRoot with
    | true => exact hs.hold ha _
    | false => exact (hs.hold ha (.registered s.nextServer)).congr rfl rfl

/-- A memory or a space: each reference stands for one count. -/
theorem goes_allocateAsset (hs : s.Inv) (hk : made k) (hextra : extraCount s.nextPtr k = 0) :
    Goes made s (s.allocateAsset space k) := by
  apply Goes.of_new hs hk
  · rw [hextra]
    exact hs.counts_new space k
  · exact kindOf_allocateAsset s space k

theorem goes_createMemory (hs : s.Inv) (hk : made .memory) {outcome : Outcome}
    (h : s.createMemory space outcome = some s') : Goes made s s' := by
  have hnew : Goes made s (s.allocateAsset space .memory) := goes_allocateAsset hs hk rfl
  cases outcome with
  | refused =>
    simp only [createMemory, Option.some.injEq] at h
    exact h ▸ Goes.refl hs
  | failed => exact hnew.trans (goes_assetRemove hnew.inv h)
  | done =>
    simp only [createMemory, Option.some.injEq] at h
    exact h ▸ hnew

theorem goes_newMapping (hs : s.Inv) (hk : made .mapping) (ha : s.kindOf a ≠ none) :
    Goes made s ((s.allocateAsset space .mapping).hold (.field s.nextPtr) a) := by
  apply Goes.of_new hs hk
  · exact (hs.counts_new space .mapping).hold (kindOf_allocated_ne_none ha) _
  · rw [kindOf_hold, kindOf_allocateAsset]

theorem goes_createMapping (hs : s.Inv) (hk : made .mapping) {memory : ℕ} {outcome : Outcome}
    (h : s.createMapping space memory outcome = some s') : Goes made s s' := by
  unfold createMapping at h
  cases hm : s.byHandleAs space memory .memory with
  | none =>
    simp only [hm, Option.some.injEq] at h
    exact h ▸ Goes.refl hs
  | some m =>
    simp only [hm] at h
    have hlive : s.kindOf m ≠ none := by simp [(byHandleAs_mem hm).2]
    have hnew : Goes made s ((s.allocateAsset space .mapping).hold (.field s.nextPtr) m) :=
      goes_newMapping hs hk hlive
    cases outcome with
    | refused => exact Option.some.inj h ▸ hnew
    | failed => exact hnew.trans (goes_assetRemove hnew.inv h)
    | done => exact Option.some.inj h ▸ hnew

theorem goes_newTask (hs : s.Inv) (hk : made .task) (space : SpacePtr) :
    Goes made s { (s.allocateAsset space .task).own s.nextPtr with
      spaceOwner := Function.update s.spaceOwner s.nextPtr space } := by
  apply Goes.of_new hs hk
  · exact ((hs.counts_new space .task).own_new kindOf_new_ne_none).congr rfl rfl
  · exact (kindOf_own _ _).trans (kindOf_allocateAsset s space .task)

theorem goes_createTask (hs : s.Inv) (hk : made .task) {initialized : Bool}
    (h : s.createTask space initialized = some s') : Goes made s s' := by
  have hnew := goes_newTask hs hk space
  unfold createTask at h
  cases initialized with
  | true => exact Option.some.inj h ▸ hnew
  | false => exact hnew.trans (goes_assetRemove hnew.inv h)

/-- Only the count of the root is set by hand. -/
theorem Inv.extraCount_space (hs : s.Inv) : extraCount s.nextPtr .space = 0 := if_neg hs.root.ne'

theorem goes_createSpace (hs : s.Inv) (hk : made .space) {created : Bool}
    (h : s.createSpace space created = some s') : Goes made s s' := by
  unfold createSpace at h
  cases created with
  | true =>
    rw [← Option.some.inj h]
    apply Goes.of_new hs hk
    · rw [hs.extraCount_space]
      apply Counts.hold
      · exact (hs.counts_new space .space).congr rfl rfl
      · exact kindOf_new_ne_none
    · rw [kindOf_hold]
      exact kindOf_allocateAsset s space .space
  | false =>
    have hnew : Goes made s (s.allocateAsset space .space) :=
      goes_allocateAsset hs hk hs.extraCount_space
    exact hnew.trans (goes_assetRemove hnew.inv h)

-- The five creations: a new asset that refers to another one, or to none, and
-- is owned twice.

theorem goes_createIpcEndpoint (hs : s.Inv) (hk : made .ipcEndpoint)
    (hspace : s.kindOf space = some .space) (publish isRoot : Bool) :
    Goes made s (s.createIpcEndpoint space publish isRoot) := by
  have hlive : (s.allocateAsset space .ipcEndpoint).kindOf space ≠ none :=
    kindOf_allocated_ne_none (by simp [hspace])
  have hfield := (hs.counts_new space .ipcEndpoint).hold hlive (.field s.nextPtr)
  unfold createIpcEndpoint
  apply Goes.of_new hs hk
  · apply Counts.own_new
    · exact hfield.numberServer (by simp) publish isRoot
    · simp
  · simp

theorem goes_createIpcConnection (hs : s.Inv) (hk : made .ipcConnection) (ha : s.kindOf a ≠ none) :
    Goes made s (s.createIpcConnection space a) := by
  unfold createIpcConnection
  apply Goes.of_new hs hk
  · apply Counts.hold
    · exact (hs.counts_new space .ipcConnection).own_new kindOf_new_ne_none
    · rw [kindOf_own]
      exact kindOf_allocated_ne_none ha
  · simp

theorem goes_createIpcReturnTask (hs : s.Inv) (hk : made .ipcReturnTask) (ha : s.kindOf a ≠ none) :
    Goes made s (s.createIpcReturnTask space a) := by
  unfold createIpcReturnTask
  apply Goes.of_new hs hk
  · apply Counts.own_new
    · exact (hs.counts_new space .ipcReturnTask).hold (kindOf_allocated_ne_none ha) _
    · simp
  · simp

theorem goes_createSignalEndpoint (hs : s.Inv) (hk : made .signalEndpoint) (space : SpacePtr) :
    Goes made s (s.createSignalEndpoint space) := by
  unfold createSignalEndpoint
  apply Goes.of_new hs hk
  · exact (hs.counts_new space .signalEndpoint).own_new kindOf_new_ne_none
  · simp

theorem goes_createAttachedSignal (hs : s.Inv) (hk : made .signalAttached) (ha : s.kindOf a ≠ none) :
    Goes made s (s.createAttachedSignal space a) := by
  unfold createAttachedSignal
  apply Goes.of_new hs hk
  · apply Counts.own_new
    · exact (hs.counts_new space .signalAttached).hold (kindOf_allocated_ne_none ha) _
    · simp
  · simp

theorem goes_assetMove (hs : s.Inv) (ha : s.byHandle source handle = some a) (target : SpacePtr) :
    Goes made s (s.assetMove source target handle a) := by
  have htake := hs.exact.take (find_mem ha)
  exact Goes.of_kindOf ⟨htake.put, hs.below, hs.root⟩ rfl

theorem goes_assetCopy (hs : s.Inv) (ha : s.kindOf a ≠ none) (h : s.assetCopy target a = some s') :
    Goes made s s' := by
  unfold assetCopy at h
  by_cases hself : a = target
  · simp [hself] at h
  · rw [if_neg hself, Option.some.injEq] at h
    subst h
    apply Goes.of_kindOf
    · exact (Counts.hold hs ha _).congr rfl rfl
    · exact kindOf_hold _ _ _

theorem goes_updateInplaceMessage (source target : SpacePtr) : ∀ (ds : List IpcData) {s s' : RefState}
    {ok : Bool}, s.Inv → updateInplaceMessage source target ds s = some (ok, s') → Goes made s s'
  | [], s, s', ok, hs, h => by
    simp only [updateInplaceMessage, Option.some.injEq, Prod.mk.injEq] at h
    exact h.2 ▸ Goes.refl hs
  | d :: ds, s, s', ok, hs, h => by
    unfold updateInplaceMessage at h
    by_cases hd : d.isAsset = true
    · rw [if_pos hd] at h
      cases ha : s.byHandle source d.value with
      | none =>
        simp only [ha, Option.some.injEq, Prod.mk.injEq] at h
        exact h.2 ▸ Goes.refl hs
      | some a =>
        simp only [ha] at h
        by_cases hcopy : d.copyAsset = true
        · simp only [hcopy, Bool.not_true, Bool.false_eq_true, if_false, Option.bind_eq_some_iff] at h
          obtain ⟨s₁, h₁, h⟩ := h
          have hgoes : Goes made s s₁ := goes_assetCopy hs (hs.kindOf_ne_none ha) h₁
          exact hgoes.trans (goes_updateInplaceMessage source target ds hgoes.inv h)
        · simp only [hcopy, Bool.not_false, if_true] at h
          have hgoes : Goes made s (s.assetMove source target d.value a) :=
            goes_assetMove hs ha target
          exact hgoes.trans (goes_updateInplaceMessage source target ds hgoes.inv h)
    · rw [if_neg hd] at h
      exact goes_updateInplaceMessage source target ds hs h

theorem goes_ipcSend (hs : s.Inv) {connection : ℕ} {arguments : List IpcData}
    {sent : Option AssetPtr} (h : s.ipcSend source connection arguments = some (sent, s')) :
    Goes made s s' := by
  unfold ipcSend at h
  cases hc : s.byHandleAs source connection .ipcConnection with
  | none =>
    simp only [hc, Option.some.injEq, Prod.mk.injEq] at h
    exact h.2 ▸ Goes.refl hs
  | some c =>
    simp only [hc] at h
    cases he : s.find (.field c) with
    | none => simp [he] at h
    | some e =>
      simp only [he] at h
      cases ht : s.find (.field e) with
      | none => simp [ht] at h
      | some t =>
        simp only [ht, Option.map_eq_some_iff] at h
        obtain ⟨⟨ok, s₁⟩, hupdate, h⟩ := h
        simp only [Prod.mk.injEq] at h
        exact h.2 ▸ goes_updateInplaceMessage _ _ arguments hs hupdate

theorem goes_ipcReply (hs : s.Inv) {returnTask : ℕ} {arguments : List IpcData}
    (h : s.ipcReply space returnTask arguments = some s') : Goes made s s' := by
  unfold ipcReply at h
  cases hr : s.byHandleAs space returnTask .ipcReturnTask with
  | none =>
    simp only [hr, Option.some.injEq] at h
    exact h ▸ Goes.refl hs
  | some r =>
    simp only [hr] at h
    cases ht : s.find (.field r) with
    | none => simp [ht] at h
    | some t =>
      simp only [ht] at h
      by_cases hspace : s.kindOf (s.spaceOwner t) = some .space
      · rw [if_pos hspace, Option.bind_eq_some_iff] at h
        obtain ⟨⟨ok, s₁⟩, hupdate, h⟩ := h
        have hgoes : Goes made s s₁ := goes_updateInplaceMessage _ _ arguments hs hupdate
        cases ok with
        | true => exact hgoes.trans (goes_assetRemove hgoes.inv h)
        | false => exact Option.some.inj h ▸ hgoes
      · simp [hspace] at h

theorem goes_ipcRound (hs : s.Inv) (hk : made .ipcReturnTask) {callee : AssetPtr} {connection : ℕ}
    {arguments : List IpcData} {receiver : SpacePtr} {endpoint : ℕ} {reply : List IpcData}
    (h : s.ipcRound callee source connection arguments receiver endpoint reply = some s') :
    Goes made s s' := by
  unfold ipcRound at h
  rw [Option.bind_eq_some_iff] at h
  obtain ⟨⟨sent, s₁⟩, hsend, h⟩ := h
  have hgoes : Goes made s s₁ := goes_ipcSend hs hsend
  cases sent with
  | none => exact Option.some.inj h ▸ hgoes
  | some e =>
    by_cases hround : s₁.byHandle receiver endpoint = some e ∧ s₁.kindOf callee = some .task
    · simp only [hround, and_self, if_true] at h
      have hreturn : Goes made s₁ (s₁.createIpcReturnTask receiver callee) :=
        goes_createIpcReturnTask hgoes.inv hk (by simp [hround.2])
      exact (hgoes.trans hreturn).trans (goes_ipcReply hreturn.inv h)
    · simp [hround] at h

/-- An operation that first looks for its asset, and changes nothing if there is none. -/
theorem goes_of_found (hs : s.Inv) {found : Option AssetPtr} {act : AssetPtr → Option RefState}
    (h : (match found with | none => some s | some a => act a) = some s')
    (hact : ∀ a, found = some a → act a = some s' → Goes made s s') : Goes made s s' := by
  cases found with
  | none => exact Option.some.inj h ▸ Goes.refl hs
  | some a => exact hact a rfl h

/-- **One step.** It keeps the counts, and what it makes is owned twice only if
the step is not clean. -/
theorem goes_step (hs : s.Inv) {op : RefOp} (h : s.step op = some s') :
    Goes (fun k => overcounted k = true → ¬ s.Clean op) s s' := by
  unfold step at h
  by_cases hspaces : ∀ space ∈ op.spaces, s.kindOf space = some .space
  · rw [if_pos hspaces] at h
    cases op with
    | createMemory space outcome => exact goes_createMemory hs (by simp [overcounted]) h
    | createMapping space memory outcome => exact goes_createMapping hs (by simp [overcounted]) h
    | createTask space initialized => exact goes_createTask hs (by simp [overcounted]) h
    | createSpace space created => exact goes_createSpace hs (by simp [overcounted]) h
    | createIpcEndpoint space publish isRoot =>
      rw [← Option.some.inj h]
      exact goes_createIpcEndpoint hs (fun _ hclean => hclean) (hspaces space (by simp [RefOp.spaces]))
        publish isRoot
    | createIpcConnection space endpoint =>
      refine goes_of_found hs h fun e he h => ?_
      rw [← Option.some.inj h]
      apply goes_createIpcConnection hs
      · simp [Clean, he]
      · simp [(byHandleAs_mem he).2]
    | connectByAddress space server =>
      refine goes_of_found hs h fun e he h => ?_
      rw [← Option.some.inj h]
      exact goes_createIpcConnection hs (by simp [Clean, he]) (hs.kindOf_ne_none he)
    | createIpcReturnTask space task =>
      refine goes_of_found hs h fun t ht h => ?_
      rw [← Option.some.inj h]
      apply goes_createIpcReturnTask hs
      · simp [Clean, ht]
      · simp [(byHandleAs_mem ht).2]
    | createSignalEndpoint space =>
      rw [← Option.some.inj h]
      exact goes_createSignalEndpoint hs (fun _ hclean => hclean) space
    | createAttachedSignal space endpoint =>
      refine goes_of_found hs h fun e he h => ?_
      rw [← Option.some.inj h]
      apply goes_createAttachedSignal hs
      · simp [Clean, he]
      · simp [(byHandleAs_mem he).2]
    | assetMove source target handle =>
      refine goes_of_found hs h fun a ha h => ?_
      rw [← Option.some.inj h]
      exact goes_assetMove hs ha target
    | assetCopy source target handle =>
      exact goes_of_found hs h fun a ha h => goes_assetCopy hs (hs.kindOf_ne_none ha) h
    | assetRelease space handle =>
      exact goes_of_found hs h fun _ _ h => goes_assetRemove hs h
    | ipcRound callee source connection arguments receiver endpoint reply =>
      by_cases hc : s.byHandleAs source connection .ipcConnection = none
      · simp only [perform, ipcRound, ipcSend, hc, Option.bind_some, Option.some.injEq] at h
        exact h ▸ Goes.refl hs
      · exact goes_ipcRound hs (fun _ hclean => hc hclean) h
  · simp [hspaces] at h

/-- There is an asset that is owned once more than it is referred to. -/
def Leaked (s : RefState) : Prop := ∃ a k, s.kindOf a = some k ∧ overcounted k = true

/-- A step that is not clean leaves such an asset, or has one already. -/
theorem leaked_of_not_clean (hs : s.Inv) {op : RefOp} (h : s.step op = some s')
    (hop : ¬ s.Clean op) : s'.Leaked := by
  have hgoes := goes_step hs h
  unfold step at h
  by_cases hspaces : ∀ space ∈ op.spaces, s.kindOf space = some .space
  · rw [if_pos hspaces] at h
    cases op with
    | createMemory | createMapping | createTask | createSpace | assetMove | assetCopy
    | assetRelease => exact absurd trivial hop
    | createIpcEndpoint space publish isRoot =>
      rw [← Option.some.inj h]
      exact ⟨s.nextPtr, .ipcEndpoint, by simp [createIpcEndpoint], rfl⟩
    | createSignalEndpoint space =>
      rw [← Option.some.inj h]
      exact ⟨s.nextPtr, .signalEndpoint, by simp [createSignalEndpoint], rfl⟩
    | createIpcConnection space endpoint =>
      obtain ⟨e, he⟩ := Option.ne_none_iff_exists'.mp hop
      simp only [perform, he, Option.some.injEq] at h
      rw [← h]
      exact ⟨s.nextPtr, .ipcConnection, by simp [createIpcConnection], rfl⟩
    | connectByAddress space server =>
      obtain ⟨e, he⟩ := Option.ne_none_iff_exists'.mp hop
      simp only [perform, he, Option.some.injEq] at h
      rw [← h]
      exact ⟨s.nextPtr, .ipcConnection, by simp [createIpcConnection], rfl⟩
    | createIpcReturnTask space task =>
      obtain ⟨t, ht⟩ := Option.ne_none_iff_exists'.mp hop
      simp only [perform, ht, Option.some.injEq] at h
      rw [← h]
      exact ⟨s.nextPtr, .ipcReturnTask, by simp [createIpcReturnTask], rfl⟩
    | createAttachedSignal space endpoint =>
      obtain ⟨e, he⟩ := Option.ne_none_iff_exists'.mp hop
      simp only [perform, he, Option.some.injEq] at h
      rw [← h]
      exact ⟨s.nextPtr, .signalAttached, by simp [createAttachedSignal], rfl⟩
    | ipcRound callee source connection arguments receiver endpoint reply =>
      -- the connection of the round is one of them
      obtain ⟨c, hc⟩ := Option.ne_none_iff_exists'.mp hop
      exact ⟨c, .ipcConnection, hgoes.kept c _ rfl (byHandleAs_mem hc).2, rfl⟩
  · simp [hspaces] at h

theorem leaked_step_iff (hs : s.Inv) {op : RefOp} (h : s.step op = some s') :
    s'.Leaked ↔ s.Leaked ∨ ¬ s.Clean op := by
  have hgoes := goes_step hs h
  constructor
  · intro ⟨a, k, hk, hover⟩
    apply (hgoes.new a k hk).elim
    · exact fun hold => .inl ⟨a, k, hold, hover⟩
    · exact fun hnew => .inr (hnew hover)
  · intro hor
    apply hor.elim
    · exact fun ⟨a, k, hk, hover⟩ => ⟨a, k, hgoes.kept a k hover hk, hover⟩
    · exact leaked_of_not_clean hs h

theorem exact_iff_not_leaked (hs : s.Inv) : s.Exact ↔ ¬ s.Leaked := by
  constructor
  · intro hexact ⟨a, k, hk, hover⟩
    obtain ⟨x, hx, rfl⟩ := Option.map_eq_some_iff.mp hk
    have hcounted : counted x.kind = true := by
      cases hkind : x.kind <;> simp_all [counted, overcounted]
    have hcount := hs.exact.count_eq a x hx
    have hone : s.surplus a = 1 := by simp [surplus, hk, extraCount_of_overcounted hover]
    have hrefs := (hexact.1 a x hx hcounted).1
    omega
  · intro hclean
    refine ⟨fun a x hx hcounted => ?_, fun a ha => (hs.exact.gone a ha).1⟩
    have hk : s.kindOf a = some x.kind := by simp [kindOf, hx]
    have hzero : s.surplus a = 0 := by
      have hover : ¬ overcounted x.kind = true := fun hover => hclean ⟨a, x.kind, hk, hover⟩
      simp [surplus, hk, extraCount_of_counted hcounted, hover]
    have hcount := hs.exact.count_eq a x hx
    have hpos := hs.exact.pos a x hx
    omega

theorem inv_start : start.Inv := by
  have hsurplus : ∀ a, start.surplus a = if a = 0 then 99998 else 0 := by
    intro a
    by_cases ha : a = 0
    · simp [surplus, kindOf, start, ha, extraCount]
    · simp [surplus, kindOf, start, ha]
  refine ⟨⟨fun a x hx => ?_, fun a x hx => ?_, fun a ha => ?_⟩, fun a ha => ?_, Nat.one_pos⟩
  · by_cases h0 : a = 0
    · subst h0
      simp only [start, Function.update_self, Option.some.injEq] at hx
      rw [hsurplus, ← hx]
      rfl
    · simp [start, h0] at hx
  · by_cases h0 : a = 0
    · subst h0
      simp only [start, Function.update_self, Option.some.injEq] at hx
      rw [← hx]
      exact Nat.succ_pos _
    · simp [start, h0] at hx
  · have h0 : a ≠ 0 := by
      intro h0
      simp [start, h0] at ha
    rw [hsurplus, if_neg h0]
    exact ⟨by simp [Store.refsTo, start, Ne.symm h0], rfl⟩
  · have h0 : a ≠ 0 := (Nat.lt_of_lt_of_le Nat.one_pos ha).ne'
    simp [start, h0]

theorem not_leaked_start : ¬ start.Leaked := by
  intro ⟨a, k, hk, hover⟩
  by_cases ha : a = 0
  · subst ha
    simp only [kindOf, start, Function.update_self, Option.map_some, Option.some.injEq] at hk
    simp [← hk, overcounted] at hover
  · simp [kindOf, start, ha] at hk

/-- A failed creation finds its asset in the table again. -/
theorem remove_new_some (hs : s'.Inv)
    (hmem : (RefHolder.entry space handle, a) ∈ s'.store.refs) :
    ∃ t, s'.assetRemove space handle = some t := by
  obtain ⟨b, hb⟩ := find_of_mem hmem
  exact assetRemove_some hs hb

theorem mem_allocateAsset (s : RefState) (space : SpacePtr) (k : RefKind) :
    (RefHolder.entry space (s.allocUid space + 1), s.nextPtr) ∈ (s.allocateAsset space k).store.refs := by
  simp [allocateAsset, Store.put]

/-- A clean step on spaces that exist returns. -/
theorem step_some (hs : s.Inv) {op : RefOp} (hclean : s.Clean op) (husable : s.Usable op) :
    ∃ s', s.step op = some s' := by
  unfold step
  rw [if_pos husable.1]
  cases op with
  | createMemory space outcome =>
    cases outcome with
    | refused => exact ⟨_, rfl⟩
    | failed =>
      have hnew : Goes (fun _ => True) s (s.allocateAsset space .memory) :=
        goes_allocateAsset hs trivial rfl
      exact remove_new_some hnew.inv (mem_allocateAsset s space .memory)
    | done => exact ⟨_, rfl⟩
  | createMapping space memory outcome =>
    simp only [perform, createMapping]
    cases hm : s.byHandleAs space memory .memory with
    | none => exact ⟨_, rfl⟩
    | some m =>
      cases outcome with
      | refused => exact ⟨_, rfl⟩
      | failed =>
        have hnew : Goes (fun _ => True) s
            ((s.allocateAsset space .mapping).hold (.field s.nextPtr) m) :=
          goes_newMapping hs trivial (by simp [(byHandleAs_mem hm).2])
        apply remove_new_some hnew.inv
        exact List.mem_append_left _ (mem_allocateAsset s space .mapping)
      | done => exact ⟨_, rfl⟩
  | createTask space initialized =>
    cases initialized with
    | true => exact ⟨_, rfl⟩
    | false =>
      have hnew : Goes (fun _ => True) s _ := goes_newTask hs trivial space
      exact remove_new_some hnew.inv (mem_allocateAsset s space .task)
  | createSpace space created =>
    cases created with
    | true => exact ⟨_, rfl⟩
    | false =>
      have hnew : Goes (fun _ => True) s (s.allocateAsset space .space) :=
        goes_allocateAsset hs trivial hs.extraCount_space
      exact remove_new_some hnew.inv (mem_allocateAsset s space .space)
  | createIpcEndpoint => exact ⟨_, rfl⟩
  | createSignalEndpoint => exact ⟨_, rfl⟩
  | createIpcConnection space endpoint =>
    have hnone : s.byHandleAs space endpoint .ipcEndpoint = none := hclean
    simp [perform, hnone]
  | connectByAddress space server =>
    have hnone : s.find (.registered server) = none := hclean
    simp [perform, hnone]
  | createIpcReturnTask space task =>
    have hnone : s.byHandleAs space task .task = none := hclean
    simp [perform, hnone]
  | createAttachedSignal space endpoint =>
    have hnone : s.byHandleAs space endpoint .signalEndpoint = none := hclean
    simp [perform, hnone]
  | assetMove source target handle =>
    simp only [perform]
    cases s.byHandle source handle with
    | none => exact ⟨_, rfl⟩
    | some a => exact ⟨_, rfl⟩
  | assetCopy source target handle =>
    simp only [perform]
    cases ha : s.byHandle source handle with
    | none => exact ⟨_, rfl⟩
    | some a =>
      have hne : a ≠ target := fun hne => husable.2 (hne ▸ ha)
      simp [assetCopy, hne]
  | assetRelease space handle =>
    simp only [perform]
    cases ha : s.byHandle space handle with
    | none => exact ⟨_, rfl⟩
    | some a => exact assetRemove_some hs ha
  | ipcRound callee source connection arguments receiver endpoint reply =>
    have hnone : s.byHandleAs source connection .ipcConnection = none := hclean
    simp [perform, ipcRound, ipcSend, hnone]

end RefState

open Lib in
/-- **When the counts are exact.** After every run from the root space the
count of each memory, mapping, endpoint, connection, return task and signal is
the number of its references, with none of them deleted while referred to and
none left without a reference, if and only if no step has made an endpoint, a
connection, a return task, a signal endpoint or an attached signal. A run of
such steps on spaces that exist gets through. -/
theorem counts_exact_iff (ops : List RefOp) :
    (∀ s, run RefState.step ops RefState.start = some s →
      (s.Exact ↔ Meets RefState.step RefState.Clean ops RefState.start)) ∧
    (Meets RefState.step (fun s op => s.Clean op ∧ s.Usable op) ops RefState.start →
      ∃ s, run RefState.step ops RefState.start = some s) := by
  constructor
  · intro s h
    obtain ⟨hs, hleaked⟩ := marked_iff_not_meets (C := RefState.Clean)
      (fun s op s' hs h => ⟨(RefState.goes_step hs h).inv, RefState.leaked_step_iff hs h⟩) ops
      RefState.inv_start h
    rw [RefState.exact_iff_not_leaked hs, hleaked]
    simp [RefState.not_leaked_start]
  · intro h
    have htotal := run_total_of_meets (P := RefState.Inv) (fun s op hs hop => by
      obtain ⟨s', h'⟩ := RefState.step_some hs hop.1 hop.2
      exact ⟨s', h', (RefState.goes_step hs h').inv⟩) ops h RefState.inv_start
    obtain ⟨s, hs, -⟩ := htotal
    exact ⟨s, hs⟩

/-- A memory that is copied to a second space, mapped there and released. -/
def shareMemory : List RefOp :=
  [.createSpace 0 true, .createMemory 0 .done, .assetCopy 0 1 18, .createMapping 1 10017 .done,
    .assetRelease 0 18, .assetRelease 1 10017]

open Lib in
theorem counts_exact_shared : ∃ s, run RefState.step shareMemory RefState.start = some s ∧ s.Exact := by
  have hmeets : Meets RefState.step RefState.Clean shareMemory RefState.start := by
    simp [shareMemory, Meets, RefState.Clean]
  have hrun : (run RefState.step shareMemory RefState.start).isSome = true := by decide +kernel
  obtain ⟨s, hs⟩ := Option.isSome_iff_exists.mp hrun
  exact ⟨s, hs, ((counts_exact_iff shareMemory).1 s hs).mpr hmeets⟩

/-- An asset, its count and the number of references to it. -/
def RefState.countOf (s : RefState) (a : AssetPtr) : Option (RefKind × ℕ × ℕ) :=
  (s.store.cells a).map fun x => (x.kind, x.count, s.store.refsTo a)

theorem RefState.Exact.countOf_eq {s : RefState} (hs : s.Exact) {a : AssetPtr} {k : RefKind} {n m : ℕ}
    (h : s.countOf a = some (k, n, m)) (hk : RefState.counted k = true) : n = m := by
  obtain ⟨x, hx, hcount⟩ := Option.map_eq_some_iff.mp h
  simp only [Prod.mk.injEq] at hcount
  obtain ⟨rfl, rfl, rfl⟩ := hcount
  exact (hs.1 a x hx hk).1

open Lib in
/-- An endpoint is made and released: it is still there, with a count of one,
and nobody refers to it. -/
theorem endpoint_leaked : ¬ ∀ ops s, run RefState.step ops RefState.start = some s → s.Exact := by
  intro hall
  have heval : (run RefState.step [.createIpcEndpoint 0 false false, .assetRelease 0 17]
      RefState.start).bind (fun s => s.countOf 1) = some (.ipcEndpoint, 1, 0) := by
    decide +kernel
  rw [Option.bind_eq_some_iff] at heval
  obtain ⟨s, hrun, hs⟩ := heval
  exact absurd ((hall _ s hrun).countOf_eq hs rfl) Nat.one_ne_zero

end WingOS
