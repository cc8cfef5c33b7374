/-
# Memory, mappings and the calls on them

The assets that stand for memory (`kernel/generic/asset.cpp`) and the system
calls that make, release and move assets (`syscalls.cpp`). An asset counts the
references to it: those in the tables of the spaces and, for a memory, those
of its mappings. `Asset::deref` drops one; the last one gone, a memory that was
allocated gives its pages back, and a mapping drops its memory. It does not
touch the page tables: `VmmSpace::unmap` has no caller.

Calls run one after the other. The references a call takes for itself are
dropped before it returns, and are left out. `by_fn` returns one of the assets
that match, depending on the order of the buckets; the call gets it as an
argument. A result of `none` is a call that reaches `unreachable$`.

Key definitions: `Asset`, `Kernel`, `Kernel.deref`, `Kernel.createMemory`,
`Kernel.createMapping`, `Syscall`, `Kernel.step`.
-/
import WingOS.AssetTable
import WingOS.Paging

namespace WingOS

inductive AssetKind
  | memory (size addr : ℕ) (allocated : Bool)
  | mapping (start stop : ℕ) (physicalMem : AssetRef) (writable executable : Bool)
  | space
  deriving DecidableEq

structure Asset where
  refCount : ℕ
  kind : AssetKind

/-- `root` is the address of the top table of a space, `heap` has the assets
that exist and `nextPtr` is the pointer the next one gets. -/
structure Kernel where
  context : MachineContext
  kernelVirtualBase : ℕ
  vm : Vmm
  root : SpacePtr → ℕ
  tables : Spaces
  heap : AssetPtr → Option Asset
  nextPtr : AssetPtr

namespace Kernel

def setAsset (s : Kernel) (a : AssetPtr) (x : Option Asset) : Kernel :=
  { s with heap := Function.update s.heap a x }

def setTable (s : Kernel) (space : SpacePtr) (t : AssetTable) : Kernel :=
  { s with tables := Function.update s.tables space t }

def setPmm (s : Kernel) (pmm : Pmm) : Kernel := { s with vm := { s.vm with pmm } }

/-- `Asset::own`. -/
def own (s : Kernel) (a : AssetPtr) : Kernel :=
  s.setAsset a ((s.heap a).map fun x => { x with refCount := x.refCount + 1 })

/-- `Asset::deref`. The depth is at most the number of assets: each level
deletes one. -/
def deref : (depth : ℕ) → AssetPtr → Kernel → Option Kernel
  | 0, _, _ => none
  | depth + 1, a, s =>
    match s.heap a with
    | none => some s
    | some x =>
      if x.refCount = 0 then
        -- "double free detected": the counter has wrapped around
        some (s.setAsset a (some { x with refCount := 2 ^ 64 - 1 }))
      else if x.refCount ≠ 1 then
        some (s.setAsset a (some { x with refCount := x.refCount - 1 }))
      else
        match x.kind with
        | .memory size addr allocated =>
          if allocated then
            (s.vm.pmm.release addr (size / 4096)).map fun (_, pmm) => (s.setPmm pmm).setAsset a none
          else some (s.setAsset a none)
        | .mapping _ _ physicalMem _ _ =>
          match physicalMem.asset with
          | none => some (s.setAsset a none)
          | some m => deref depth m (s.setAsset a none)
        | .space =>
          -- the destructor of the table drops all its references
          let t := s.tables a
          let s := (s.setTable a (AssetTable.empty t.allocUid)).setAsset a none
          (List.range (t.allocUid + 1)).foldlM (fun s h =>
            match t.assetAt h with
            | none => some s
            | some b => deref depth b s) s

/-- `_asset_remove`, and the reference it returns is dropped. -/
def assetRemove (s : Kernel) (space : SpacePtr) (h : ℕ) : Option Kernel :=
  match (s.tables space).assets h with
  | none => none
  | some r =>
    let s := s.setTable space ((s.tables space).moveOut h)
    match r.asset with
    | none => some s
    | some a => s.deref (s.nextPtr + 1) a

/-- `allocate_asset`: the asset, with its reference in the table, and the
handle. -/
def allocateAsset (s : Kernel) (space : SpacePtr) (kind : AssetKind) : Kernel :=
  let s := s.setTable space
    ((s.tables space).insertNew { asset := some s.nextPtr, handle := 0 } (Option.some_ne_none _))
  { s.setAsset s.nextPtr (some { refCount := 1, kind }) with nextPtr := s.nextPtr + 1 }

section Tables

variable (s : Kernel) (space : SpacePtr)

theorem assetAt_setTable (t : AssetTable) (sp : SpacePtr) (j : ℕ) : ((s.setTable space t).tables sp).assetAt j =
    if sp = space then t.assetAt j else (s.tables sp).assetAt j := by
  unfold setTable
  dsimp only
  rw [Function.update_apply]
  split
  · rfl
  · rfl

theorem assetAt_remove (k : ℕ) (sp : SpacePtr) (j : ℕ) :
    ((s.setTable space ((s.tables space).moveOut k)).tables sp).assetAt j =
      if sp = space ∧ j = k then none else (s.tables sp).assetAt j := by
  rw [assetAt_setTable]
  by_cases hsp : sp = space
  · rw [if_pos hsp, AssetTable.assetAt_moveOut, hsp]
    by_cases hj : j = k
    · rw [if_pos hj, if_pos ⟨rfl, hj⟩]
    · rw [if_neg hj, if_neg fun hc => hj hc.2]
  · rw [if_neg hsp, if_neg fun hc => hsp hc.1]

theorem assetAt_allocate (kind : AssetKind) (sp : SpacePtr) (j : ℕ) :
    ((s.allocateAsset space kind).tables sp).assetAt j =
      if sp = space ∧ j = (s.tables space).allocUid + 1 then some s.nextPtr
      else (s.tables sp).assetAt j := by
  change ((s.setTable space _).tables sp).assetAt j = _
  rw [assetAt_setTable]
  by_cases hsp : sp = space
  · rw [if_pos hsp, AssetTable.assetAt_insertNew, hsp]
    by_cases hj : j = (s.tables space).allocUid + 1
    · rw [if_pos hj, if_pos ⟨rfl, hj⟩]
    · rw [if_neg hj, if_neg fun hc => hj hc.2]
  · rw [if_neg hsp, if_neg fun hc => hsp hc.1]

theorem assetAt_allocateAsset (kind : AssetKind) :
    ((s.allocateAsset space kind).tables space).assetAt ((s.tables space).allocUid + 1) = some s.nextPtr := by
  rw [assetAt_allocate, if_pos ⟨rfl, rfl⟩]

theorem heap_allocateAsset (kind : AssetKind) :
    (s.allocateAsset space kind).heap s.nextPtr = some ⟨1, kind⟩ := Function.update_self _ _ _

theorem heap_allocateAsset_of_ne (kind : AssetKind) {b : AssetPtr} (hb : b ≠ s.nextPtr) :
    (s.allocateAsset space kind).heap b = s.heap b := Function.update_of_ne hb _ _

end Tables

/-- `Pages::from_bytes_ceil`. -/
def pagesCeil (bytes : ℕ) : ℕ := (bytes + 4096 - 1) % 2 ^ 64 / 4096

/-- The loop of `create_memory` over the memory map: the first entry around
the range decides. -/
def ownFixed (context : MachineContext) (pmm : Pmm) (addr size : ℕ) : Pmm :=
  match context.memoryMap.find? fun e =>
      decide (e.range.start ≤ addr ∧ (addr + size) % 2 ^ 64 ≤ e.range.stop) with
  | some e => if e.type = .free then (pmm.own addr size).2 else pmm
  | none => pmm

/-- `Space::create_memory`. The asset is made with the address 0 first; when
there is no memory, it is dropped like that. -/
def createMemory (s : Kernel) (space : SpacePtr) (size addr : ℕ) (lowerHalf : Bool) :
    Option (Except String ℕ × Kernel) :=
  if size = 0 then some (.error "size must be greater than 0", s)
  else if addr ≠ 0 ∧ (addr + size) % 2 ^ 64 > s.kernelVirtualBase then
    some (.error "addr must be lower than kernel virtual base", s)
  else
    let handle := (s.tables space).allocUid + 1
    let ptr := s.nextPtr
    let s := s.allocateAsset space (.memory size addr (decide (addr = 0)))
    if addr = 0 then
      match s.vm.pmm.allocate (pagesCeil size) lowerHalf with
      | (.error _, pmm) =>
        ((s.setPmm pmm).assetRemove space handle).map fun s => (.error "unable to allocate memory", s)
      | (.ok addr, pmm) =>
        some (.ok handle,
          (s.setPmm pmm).setAsset ptr (some { refCount := 1, kind := .memory size addr true }))
    else some (.ok handle, s.setPmm (ownFixed s.context s.vm.pmm addr size))

/-- `Space::create_mapping`, of a memory. The asset stays in the table when a
check fails. -/
def createMapping (s : Kernel) (space : SpacePtr) (start stop : ℕ) (physicalMem : AssetRef)
    (memory : AssetPtr) (size addr : ℕ) (writable executable : Bool) :
    Option (Except String ℕ × Kernel) :=
  let handle := (s.tables space).allocUid + 1
  let s := (s.own memory).allocateAsset space (.mapping start stop physicalMem writable executable)
  if stop ≤ start then some (.error "asset_create_mapping: start must be less than end", s)
  else if s.kernelVirtualBase ≤ start then
    some (.error "asset_create_mapping: start must be less than kernel virtual base", s)
  else
    match s.vm.map (s.root space) (Range.fromBeginLen start (stop - start))
        (Range.fromBeginLen addr size) { writeable := writable, user := true } with
    | (.error _, vm) =>
      ({ s with vm }.assetRemove space handle).map fun s => (.error "unable to map physical memory", s)
    | (.ok (), vm) => some (.ok handle, { s with vm })

/-! ### System calls -/

/-- `ASSET_HANDLE_ID_INVALID`. -/
def invalidHandle : ℕ := 2 ^ 64 - 1

/-- `by_handle<Asset>`: the reference and the asset. -/
def byHandle (s : Kernel) (space : SpacePtr) (h : ℕ) : Except String (AssetRef × AssetPtr × Asset) :=
  match (s.tables space).byHandle h with
  | .error e => .error e
  | .ok r =>
    match r.asset with
    | none => .error "asset not found"
    | some a =>
      match s.heap a with
      | none => .error "asset not found"
      | some x => .ok (r, a, x)

/-- The space a call names: the caller's own, or `by_handle<Space>`. -/
def targetSpace (s : Kernel) (caller : SpacePtr) (h : ℕ) : Except String SpacePtr :=
  if h = 0 then .ok caller
  else
    match s.byHandle caller h with
    | .error e => .error e
    | .ok (_, a, x) =>
      match x.kind with
      | .space => .ok a
      | _ => .error "asset kind mismatch"

def memOwn (s : Kernel) (caller : SpacePtr) (target size addr : ℕ) :
    Option (Except String ℕ × Kernel) :=
  match s.targetSpace caller target with
  | .error e => some (.error e, s)
  | .ok space => s.createMemory space size addr false

def map (s : Kernel) (caller : SpacePtr) (target start stop physicalMem : ℕ)
    (writable executable : Bool) : Option (Except String ℕ × Kernel) :=
  match s.targetSpace caller target with
  | .error e => some (.error e, s)
  | .ok space =>
    if stop ≤ start then some (.error "invalid mapping range", s)
    else
      match s.byHandle space physicalMem with
      | .error e => some (.error e, s)
      | .ok (r, a, x) =>
        match x.kind with
        | .memory size addr _ => s.createMapping space start stop r a size addr writable executable
        | _ => some (.error "asset kind mismatch", s)

/-- The mapping of just this range, under the handle `found`. -/
def mappingAt (s : Kernel) (space : SpacePtr) (found start stop : ℕ) : Option AssetRef :=
  match s.byHandle space found with
  | .error _ => none
  | .ok (_, _, x) =>
    match x.kind with
    | .mapping start' stop' physicalMem _ _ =>
      if start' = start ∧ stop' = stop then some physicalMem else none
    | _ => none

/-- `ksyscall_mem_release`; `found` is the mapping `by_fn` returns. -/
def memRelease (s : Kernel) (caller : SpacePtr) (start stop found : ℕ) :
    Option (Except String ℕ × Kernel) :=
  match s.mappingAt caller found start stop with
  | none => some (.error "not found", s)
  | some physicalMem =>
    if physicalMem.asset = none then
      some (.error "memory asset not found for given address range", s)
    else
      (s.assetRemove caller found).bind fun s =>
        (s.assetRemove caller physicalMem.handle).map fun s => (.ok 0, s)

def assetRelease (s : Kernel) (caller : SpacePtr) (spaceHandle assetHandle start stop found : ℕ) :
    Option (Except String ℕ × Kernel) :=
  if assetHandle = invalidHandle ∧ start ≠ 0 then s.memRelease caller start stop found
  else
    match s.targetSpace caller spaceHandle with
    | .error e => some (.error e, s)
    | .ok space =>
      match s.byHandle space assetHandle with
      | .error e => some (.error e, s)
      | .ok _ => (s.assetRemove space assetHandle).map fun s => (.ok 0, s)

def assetMove (s : Kernel) (caller : SpacePtr) (fromHandle toHandle assetHandle : ℕ) :
    Except String ℕ × Kernel :=
  match s.targetSpace caller fromHandle with
  | .error e => (.error e, s)
  | .ok fromSpace =>
    match s.targetSpace caller toHandle with
    | .error e => (.error e, s)
    | .ok toSpace =>
      match s.byHandle fromSpace assetHandle with
      | .error e => (.error e, s)
      | .ok (r, _) =>
        match WingOS.assetMove (some fromSpace) (some toSpace) r s.tables with
        | .error e => (.error e, s)
        | .ok (moved, tables) => (.ok moved.handle, { s with tables })

end Kernel

/-- A call with its arguments, which are words. -/
inductive Syscall
  | memOwn (target size addr : UInt64)
  | map (target start stop physicalMem : UInt64) (writable executable : Bool)
  | assetRelease (space asset start stop found : UInt64)
  | assetMove (source target asset : UInt64)

/-- A call of a task of the space `caller`. -/
def Kernel.call (s : Kernel) (caller : SpacePtr) : Syscall → Option (Except String ℕ × Kernel)
  | .memOwn target size addr => s.memOwn caller target.toNat size.toNat addr.toNat
  | .map target start stop physicalMem writable executable =>
    s.map caller target.toNat start.toNat stop.toNat physicalMem.toNat writable executable
  | .assetRelease space asset start stop found =>
    s.assetRelease caller space.toNat asset.toNat start.toNat stop.toNat found.toNat
  | .assetMove source target asset =>
    some (s.assetMove caller source.toNat target.toNat asset.toNat)

def Kernel.step (s : Kernel) (op : SpacePtr × Syscall) : Option Kernel :=
  (s.call op.1 op.2).map Prod.snd

end WingOS
