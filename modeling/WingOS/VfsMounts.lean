/-
# The mounted file systems

The administration of the VFS server (`app/fs/vfs`): disks and file systems are
registered, in any order, and after each message the server offers the partitions
that have no file system yet to the file systems that there are
(`VfsServer::after_receive`). The first one that is mounted is the root. The path
of each other one is to be `/mnt/` and the name of the device; but `fc::Str` has no
`+`, so `fc::Str("/mnt/") + device.name` adds a `bool` to a pointer, and the path is
the name without its first character.

What a file system says to a partition is a parameter, and so is what `parse_gpt`
says of a disk.

The server stops on an error that it unwraps: that of `parse_gpt`, that of
`mount_if_device_valid`, which takes no name of more than 80 characters, and that of
`mount_fs` for a path that is in use already. The last one comes with the third
partition of a disk that has a file system, at the latest. So the server goes on
exactly as long as the tables can be parsed, the names are not too long and the
paths that it would give are distinct (`vfs_runs_iff`). If it goes on, every
partition is mounted that a registered file system accepts, by the first one that
does, whatever came first, and no other, each once (`vfs_settled`).

Key definitions: `VfsServerCtx`, `mountFs`, `afterReceive`, `step`, `planned`,
`Settled`.
Key theorems: `mountPartition_planned`, `afterReceive_planned`, `vfs_runs_iff`,
`settled_next`, `vfs_settled`.
-/
import Mathlib.Data.List.Induction
import Mathlib.Data.List.Nodup
import Mathlib.Data.List.Perm.Basic
import WingOS.Lib.Run

namespace WingOS
namespace VfsMounts

open Lib (run)

/-- The characters of a buffer, up to its end. -/
abbrev Name := List Char

/-! ### The server -/

structure RegisteredDevicePartition where
  id : ℕ
  beginLba : ℕ
  endLba : ℕ
  partName : Name
  hasFs : Bool := false
  fsName : Name := []

structure RegisteredDevice where
  name : Name
  connectionHandle : ℕ
  partitions : List RegisteredDevicePartition

structure RegisteredFs where
  name : Name
  endpoint : ℕ

structure MountedFs where
  endpoint : ℕ
  path : Name

structure VfsServerCtx where
  registeredServices : List RegisteredDevice := []
  registeredFs : List RegisteredFs := []
  mountedFilesystems : List MountedFs := []
  mountedDevicesCount : ℕ := 0
  dirtyMount : Bool := false

/-- What `mount_if_device_valid` sends to a file system. -/
structure Request where
  device : Name
  connectionHandle : ℕ
  beginLba : ℕ
  endLba : ℕ
  partId : ℕ

def RegisteredDevice.request (device : RegisteredDevice) (part : RegisteredDevicePartition) : Request where
  device := device.name
  connectionHandle := device.connectionHandle
  beginLba := part.beginLba
  endLba := part.endLba
  partId := part.id

/-- What is read as the answer of a file system: the endpoint of a partition that is
accepted. A call that fails leaves the message as it is, and that is read too. -/
abbrev Accepts := RegisteredFs → Request → Option ℕ

/-- `mount_fs`, without the signal to init. -/
def VfsServerCtx.mountFs (ctx : VfsServerCtx) (endpoint : ℕ) (mountPath : Name) : Except String VfsServerCtx :=
  if ctx.mountedFilesystems.any fun mnt => mnt.path = mountPath then .error "mount path already in use"
  else .ok { ctx with mountedFilesystems := ctx.mountedFilesystems ++ [{ endpoint, path := mountPath }] }

/-- `mount_if_device_valid`. -/
def mountIfDeviceValid (accepts : Accepts) (fs : RegisteredFs) (request : Request) : Except String (Option ℕ) :=
  if request.device.length > 80 then .error "device name too long" else .ok (accepts fs request)

/-- The first of the file systems that accepts a partition, or the error of one
before it. -/
def firstAccepting (accepts : Accepts) (request : Request) :
    List RegisteredFs → Except String (Option (RegisteredFs × ℕ))
  | [] => .ok none
  | fs :: registeredFs =>
    match mountIfDeviceValid accepts fs request with
    | .error e => .error e
    | .ok (some endpoint) => .ok (some (fs, endpoint))
    | .ok none => firstAccepting accepts request registeredFs

/-- The path of the next mount. -/
def mountPath (mountedDevicesCount : ℕ) (device : Name) : Name :=
  -- `fc::Str("/mnt/") + device.name` is `true + device.name`
  if mountedDevicesCount = 0 then ['/'] else device.drop 1

/-- `after_receive` for one partition; `none` is an `unwrap` of an error. -/
def mountPartition (accepts : Accepts) (device : RegisteredDevice) (ctx : VfsServerCtx)
    (part : RegisteredDevicePartition) : Option (RegisteredDevicePartition × VfsServerCtx) :=
  if part.hasFs then some (part, ctx)
  else
    match firstAccepting accepts (device.request part) ctx.registeredFs with
    | .error _ => none
    | .ok none => some (part, ctx)
    | .ok (some (fs, endpoint)) =>
      let path := mountPath ctx.mountedDevicesCount device.name
      match { ctx with mountedDevicesCount := ctx.mountedDevicesCount + 1 }.mountFs endpoint path with
      | .ok ctx => some ({ part with hasFs := true, fsName := fs.name }, ctx)
      | .error _ => none

/-- The loop over the partitions of a device, with those that it has changed. -/
def mountPartitions (accepts : Accepts) (device : RegisteredDevice) (ctx : VfsServerCtx) :
    Option (List RegisteredDevicePartition × VfsServerCtx) :=
  run (fun r part => (mountPartition accepts device r.2 part).map fun p => (r.1 ++ [p.1], p.2)) device.partitions ([], ctx)

/-- The loop over the devices. -/
def mountDevices (accepts : Accepts) (ctx : VfsServerCtx) : Option (List RegisteredDevice × VfsServerCtx) :=
  run (fun r device => (mountPartitions accepts device r.2).map fun p => (r.1 ++ [{ device with partitions := p.1 }], p.2))
    ctx.registeredServices ([], ctx)

/-- `after_receive`. -/
def afterReceive (accepts : Accepts) (ctx : VfsServerCtx) : Option VfsServerCtx :=
  if ctx.dirtyMount then
    (mountDevices accepts ctx).map fun r => { r.2 with registeredServices := r.1, dirtyMount := false }
  else some ctx

/-- An entry of the partition table that `parse_gpt` has found. -/
structure GptEntry where
  lbaStart : ℕ
  lbaEnd : ℕ
  name : Name

/-- The partitions of a disk, in the order of its table. -/
def partitionsOf (entries : List GptEntry) : List RegisteredDevicePartition :=
  entries.zipIdx.map fun e => { id := e.2, beginLba := e.1.lbaStart, endLba := e.1.lbaEnd, partName := e.1.name }

/-- The text that begins in the 80 bytes of `RegisteredDevice::name`. The name of a
message may fill them, and then the text goes on with what lies `behind` them. -/
def deviceName (name behind : Name) : Name := if name.length < 80 then name else name.take 80 ++ behind

/-- A message: `VFS_REGISTER_DISK`, with what `parse_gpt` says; `VFS_REGISTER_FS`; and one that registers nothing. -/
inductive Message
  | registerDisk (name behind : Name) (connectionHandle : ℕ) (parsed : Except String (List GptEntry))
  | registerFs (fs : RegisteredFs)
  | other

def registeredDevice (name behind : Name) (connectionHandle : ℕ) (entries : List GptEntry) : RegisteredDevice where
  name := deviceName name behind
  connectionHandle := connectionHandle
  partitions := partitionsOf entries

/-- `VfsServerAdministration::call_received`; `none` is the `take` of an error. -/
def VfsServerCtx.callReceived (ctx : VfsServerCtx) : Message → Option VfsServerCtx
  | .registerDisk name behind connectionHandle parsed =>
    match parsed with
    | .error _ => none
    | .ok entries =>
      some { ctx with
        registeredServices := ctx.registeredServices ++ [registeredDevice name behind connectionHandle entries]
        dirtyMount := true }
  | .registerFs fs => some { ctx with registeredFs := ctx.registeredFs ++ [fs], dirtyMount := true }
  | .other => some ctx

/-- A message, and what the file systems say meanwhile. -/
def step (ctx : VfsServerCtx) (o : Message × Accepts) : Option VfsServerCtx :=
  (ctx.callReceived o.1).bind (afterReceive o.2)

/-- `open_root`: the endpoint that is asked for the root. -/
def VfsServerCtx.openRoot (ctx : VfsServerCtx) : Option ℕ :=
  (ctx.mountedFilesystems.find? fun mnt => mnt.path = ['/']).map MountedFs.endpoint

/-! ### What would be mounted -/

/-- What has been mounted: the names of the devices, and the endpoints. -/
abbrev Mounts := List (Name × ℕ)

/-- The server without paths: what is registered, what has been mounted, and if
something failed that is unwrapped. -/
structure Plan where
  devices : List RegisteredDevice := []
  registeredFs : List RegisteredFs := []
  mounts : Mounts := []
  failed : Bool := false

section Offers

variable (accepts : Accepts) (fss : List RegisteredFs)

/-- Who accepts a partition, and its endpoint. -/
def acceptor (request : Request) : Option (RegisteredFs × ℕ) :=
  fss.findSome? fun fs => (accepts fs request).map fun endpoint => (fs, endpoint)

/-- Who takes a partition, if it has no file system. -/
def offer (device : RegisteredDevice) (part : RegisteredDevicePartition) : Option (RegisteredFs × ℕ) :=
  if part.hasFs || 80 < device.name.length then none else acceptor accepts fss (device.request part)

def offered (device : RegisteredDevice) (part : RegisteredDevicePartition) : RegisteredDevicePartition :=
  match offer accepts fss device part with
  | none => part
  | some (fs, _) => { part with hasFs := true, fsName := fs.name }

/-- The mount that comes of it. -/
def newMount (device : RegisteredDevice) (part : RegisteredDevicePartition) : Option (Name × ℕ) :=
  (offer accepts fss device part).map fun e => (device.name, e.2)

/-- A file system is asked about a device with too long a name. -/
def fails (device : RegisteredDevice) (part : RegisteredDevicePartition) : Bool :=
  !part.hasFs && !fss.isEmpty && 80 < device.name.length

def RegisteredDevice.offered (device : RegisteredDevice) : RegisteredDevice :=
  { device with partitions := device.partitions.map (VfsMounts.offered accepts fss device) }

def RegisteredDevice.newMounts (device : RegisteredDevice) : Mounts :=
  device.partitions.filterMap (newMount accepts fss device)

def RegisteredDevice.fails (device : RegisteredDevice) : Bool := device.partitions.any (VfsMounts.fails fss device)

/-- All devices are offered to the file systems `fss`. -/
def offerAll (devices : List RegisteredDevice) (mounts : Mounts) (failed : Bool) : Plan where
  devices := devices.map (RegisteredDevice.offered accepts fss)
  registeredFs := fss
  mounts := mounts ++ devices.flatMap (RegisteredDevice.newMounts accepts fss)
  failed := failed || devices.any (RegisteredDevice.fails fss)

end Offers

/-- A message and what comes after it. -/
def Plan.next (t : Plan) (o : Message × Accepts) : Plan :=
  match o.1 with
  | .registerDisk _ _ _ (.error _) => { t with failed := true }
  | .registerDisk name behind connectionHandle (.ok entries) =>
    offerAll o.2 t.registeredFs (t.devices ++ [registeredDevice name behind connectionHandle entries]) t.mounts t.failed
  | .registerFs fs => offerAll o.2 (t.registeredFs ++ [fs]) t.devices t.mounts t.failed
  | .other => t

/-- What would be mounted if no path were ever in use. -/
def planned (ops : List (Message × Accepts)) : Plan := ops.foldl Plan.next {}

/-- The paths that are given: the root first. -/
def paths : Mounts → List Name
  | [] => []
  | _ :: ms => ['/'] :: ms.map fun m => m.1.drop 1

/-- The server that has mounted `mounts`. -/
def placed (mounts : Mounts) : List MountedFs :=
  (mounts.zip (paths mounts)).map fun m => { endpoint := m.1.2, path := m.2 }

def VfsServerCtx.withMounts (ctx : VfsServerCtx) (mounts : Mounts) : VfsServerCtx :=
  { ctx with mountedFilesystems := placed mounts, mountedDevicesCount := mounts.length }

def Plan.ctx (t : Plan) : VfsServerCtx :=
  VfsServerCtx.withMounts { registeredServices := t.devices, registeredFs := t.registeredFs } t.mounts

/-! ### Paths -/

section Paths

variable {ms : Mounts} {m : Name × ℕ}

@[simp]
theorem length_paths : (paths ms).length = ms.length := by
  cases ms <;> simp [paths]

theorem paths_append : paths (ms ++ [m]) = paths ms ++ [mountPath ms.length m.1] := by
  cases ms <;> simp [paths, mountPath]

theorem placed_append : placed (ms ++ [m]) = placed ms ++ [{ endpoint := m.2, path := mountPath ms.length m.1 }] := by
  unfold placed
  rw [paths_append, List.zip_append (by simp), List.map_append]
  rfl

@[simp]
theorem map_path_placed (ms : Mounts) : (placed ms).map MountedFs.path = paths ms := by
  unfold placed
  rw [List.map_map, show MountedFs.path ∘ _ = Prod.snd from rfl, List.map_snd_zip (by simp)]

/-- The distinct paths of more mounts. -/
theorem nodup_paths_append : (paths (ms ++ [m])).Nodup ↔ (paths ms).Nodup ∧ mountPath ms.length m.1 ∉ paths ms := by
  rw [paths_append, (List.perm_append_singleton _ _).nodup_iff, List.nodup_cons, and_comm]

/-- A path that is in use. -/
theorem any_placed {path : Name} : ((placed ms).any fun mnt => mnt.path = path) = true ↔ path ∈ paths ms := by
  rw [← map_path_placed, List.any_eq_true, List.mem_map]
  simp

theorem mountFs_eq {ctx : VfsServerCtx} (ms : Mounts) {endpoint : ℕ} {path : Name} (h : ctx.mountedFilesystems = placed ms) :
    ctx.mountFs endpoint path = if path ∈ paths ms then .error "mount path already in use"
      else .ok { ctx with mountedFilesystems := placed ms ++ [{ endpoint, path }] } := by
  unfold VfsServerCtx.mountFs
  simp only [h, any_placed]

end Paths

/-! ### The server does what is planned -/

section Planned

variable (accepts : Accepts) (ctx : VfsServerCtx) (device : RegisteredDevice)

/-- What the loop over the partitions has so far, after one more. -/
def withPartition (accepts : Accepts) (fss : List RegisteredFs) (device : RegisteredDevice)
    (r : List RegisteredDevicePartition × Mounts × Bool) (part : RegisteredDevicePartition) :
    List RegisteredDevicePartition × Mounts × Bool :=
  (r.1 ++ [offered accepts fss device part], r.2.1 ++ (newMount accepts fss device part).toList,
    r.2.2 || fails fss device part)

def withDevice (accepts : Accepts) (fss : List RegisteredFs) (r : List RegisteredDevice × Mounts × Bool)
    (device : RegisteredDevice) : List RegisteredDevice × Mounts × Bool :=
  (r.1 ++ [device.offered accepts fss], r.2.1 ++ device.newMounts accepts fss, r.2.2 || device.fails fss)

theorem foldl_withPartition (accepts : Accepts) (fss : List RegisteredFs) (device : RegisteredDevice) :
    ∀ (parts : List RegisteredDevicePartition) (r : List RegisteredDevicePartition × Mounts × Bool),
      parts.foldl (withPartition accepts fss device) r =
        (r.1 ++ parts.map (offered accepts fss device), r.2.1 ++ parts.filterMap (newMount accepts fss device),
          r.2.2 || parts.any (fails fss device))
  | [], r => by simp
  | part :: parts, r => by
    rw [List.foldl_cons, foldl_withPartition accepts fss device parts]
    cases h : newMount accepts fss device part <;> simp [withPartition, h, Bool.or_assoc]

theorem foldl_withDevice (accepts : Accepts) (fss : List RegisteredFs) :
    ∀ (devices : List RegisteredDevice) (r : List RegisteredDevice × Mounts × Bool),
      devices.foldl (withDevice accepts fss) r =
        (r.1 ++ devices.map (RegisteredDevice.offered accepts fss),
          r.2.1 ++ devices.flatMap (RegisteredDevice.newMounts accepts fss),
          r.2.2 || devices.any (RegisteredDevice.fails fss))
  | [], r => by simp
  | device :: devices, r => by
    rw [List.foldl_cons, foldl_withDevice accepts fss devices]
    simp [withDevice, Bool.or_assoc]

/-- Nothing has failed, and the paths are distinct. -/
def Goes (mounts : Mounts) (failed : Bool) : Prop := failed = false ∧ (paths mounts).Nodup

instance (mounts : Mounts) (failed : Bool) : Decidable (Goes mounts failed) := inferInstanceAs (Decidable (_ ∧ _))

theorem nodup_of_append : ∀ {ms : Mounts} (ms' : Mounts), (paths (ms ++ ms')).Nodup → (paths ms).Nodup
  | _, [], h => by rwa [List.append_nil] at h
  | ms, m :: ms', h => by
    rw [List.append_cons] at h
    exact (nodup_paths_append.mp (nodup_of_append ms' h)).1

theorem goes_of_append {ms ms' : Mounts} {failed failed' : Bool} (h : Goes (ms ++ ms') (failed || failed')) :
    Goes ms failed :=
  ⟨(Bool.or_eq_false_iff.mp h.1).1, nodup_of_append ms' h.2⟩

/-- All file systems are asked in the same name. -/
theorem firstAccepting_eq (request : Request) : ∀ fss : List RegisteredFs, firstAccepting accepts request fss =
    if !fss.isEmpty && 80 < request.device.length then .error "device name too long"
    else .ok (acceptor accepts fss request)
  | [] => rfl
  | fs :: fss => by
    unfold firstAccepting mountIfDeviceValid
    by_cases hlong : request.device.length > 80
    · simp [hlong]
    · rw [if_neg hlong, firstAccepting_eq request fss]
      unfold acceptor
      cases h : accepts fs request <;> simp [hlong, h]

theorem offer_eq {accepts : Accepts} {fss : List RegisteredFs} {device : RegisteredDevice}
    {part : RegisteredDevicePartition} (h : fails fss device part = false) :
    offer accepts fss device part = if part.hasFs then none else acceptor accepts fss (device.request part) := by
  unfold offer
  cases hfs : part.hasFs
  · by_cases hlong : 80 < device.name.length
    · have hnone : fss = [] := by simpa [fails, hfs, hlong] using h
      simp [hlong, hnone, acceptor]
    · simp [hlong]
  · rfl

/-- **One partition** is mounted as planned, if nothing fails and the path is free. -/
theorem mountPartition_planned (r : List RegisteredDevicePartition × Mounts × Bool) (part : RegisteredDevicePartition)
    (h : Goes r.2.1 r.2.2) :
    ((mountPartition accepts device (ctx.withMounts r.2.1) part).map fun p => (r.1 ++ [p.1], p.2)) =
      if Goes (withPartition accepts ctx.registeredFs device r part).2.1
          (withPartition accepts ctx.registeredFs device r part).2.2 then
        some ((withPartition accepts ctx.registeredFs device r part).1,
          ctx.withMounts (withPartition accepts ctx.registeredFs device r part).2.1)
      else none := by
  have hctx : (ctx.withMounts r.2.1).registeredFs = ctx.registeredFs ∧
      (ctx.withMounts r.2.1).mountedDevicesCount = r.2.1.length := ⟨rfl, rfl⟩
  have hname : (device.request part).device = device.name := rfl
  unfold mountPartition withPartition
  rw [hctx.1, firstAccepting_eq, hname]
  by_cases hfail : fails ctx.registeredFs device part = true
  · have hask : part.hasFs = false ∧ (!ctx.registeredFs.isEmpty && decide (80 < device.name.length)) = true := by
      simpa [fails, and_assoc] using hfail
    rw [if_neg (by simp [hask.1]), if_pos hask.2]
    simp [hfail, Goes]
  rw [Bool.not_eq_true] at hfail
  unfold newMount offered
  rw [offer_eq hfail, hfail, Bool.or_false]
  by_cases hfs : part.hasFs = true
  · simp [hfs, h]
  have hask : ¬ (!ctx.registeredFs.isEmpty && decide (80 < device.name.length)) = true := by
    simpa [fails, hfs] using hfail
  rw [if_neg hfs, if_neg hfs, if_neg hask]
  cases acceptor accepts ctx.registeredFs (device.request part) with
  | none => simp [h]
  | some e =>
    obtain ⟨fs, endpoint⟩ := e
    dsimp only [Option.map_some, Option.toList_some]
    rw [hctx.2, mountFs_eq r.2.1 rfl]
    by_cases hmem : mountPath r.2.1.length device.name ∈ paths r.2.1
    · simp [Goes, nodup_paths_append, hmem]
    · simp [Goes, nodup_paths_append, placed_append, hmem, h.1, h.2, VfsServerCtx.withMounts]

theorem mountPartitions_planned {ms : Mounts} {failed : Bool} (h : Goes ms failed) :
    mountPartitions accepts device (ctx.withMounts ms) =
      if Goes (ms ++ device.newMounts accepts ctx.registeredFs) (failed || device.fails ctx.registeredFs) then
        some ((device.offered accepts ctx.registeredFs).partitions,
          ctx.withMounts (ms ++ device.newMounts accepts ctx.registeredFs))
      else none := by
  have hback : ∀ r part, Goes (withPartition accepts ctx.registeredFs device r part).2.1
      (withPartition accepts ctx.registeredFs device r part).2.2 → Goes r.2.1 r.2.2 := fun r part => goes_of_append
  unfold mountPartitions
  refine Eq.trans (Lib.run_guarded
    (E := fun r : List RegisteredDevicePartition × Mounts × Bool => (r.1, ctx.withMounts r.2.1))
    (G := fun r => Goes r.2.1 r.2.2) (t := ([], ms, failed)) ?_ hback device.partitions h) ?_
  · exact mountPartition_planned accepts ctx device
  · simp only [foldl_withPartition, List.nil_append]
    rfl

theorem mountDevices_planned {ms : Mounts} {failed : Bool} (h : Goes ms failed) :
    mountDevices accepts (ctx.withMounts ms) =
      if Goes (offerAll accepts ctx.registeredFs ctx.registeredServices ms failed).mounts
          (offerAll accepts ctx.registeredFs ctx.registeredServices ms failed).failed then
        some ((offerAll accepts ctx.registeredFs ctx.registeredServices ms failed).devices,
          ctx.withMounts (offerAll accepts ctx.registeredFs ctx.registeredServices ms failed).mounts)
      else none := by
  have hback : ∀ r device, Goes (withDevice accepts ctx.registeredFs r device).2.1
      (withDevice accepts ctx.registeredFs r device).2.2 → Goes r.2.1 r.2.2 := fun r device => goes_of_append
  unfold mountDevices
  refine Eq.trans (Lib.run_guarded
    (E := fun r : List RegisteredDevice × Mounts × Bool => (r.1, ctx.withMounts r.2.1))
    (G := fun r => Goes r.2.1 r.2.2) (t := ([], ms, failed)) ?_ hback ctx.registeredServices h) ?_
  · intro r device hr
    dsimp only
    rw [mountPartitions_planned accepts ctx device hr]
    unfold withDevice
    split_ifs <;> rfl
  · simp only [foldl_withDevice, List.nil_append]
    rfl

/-- **After a message**: what has no file system is offered. -/
theorem afterReceive_planned {ms : Mounts} {failed : Bool} (h : Goes ms failed) (devices : List RegisteredDevice)
    (fss : List RegisteredFs) :
    afterReceive accepts (VfsServerCtx.withMounts
        { registeredServices := devices, registeredFs := fss, dirtyMount := true } ms) =
      if Goes (offerAll accepts fss devices ms failed).mounts (offerAll accepts fss devices ms failed).failed then
        some (offerAll accepts fss devices ms failed).ctx
      else none := by
  have hdirty : (VfsServerCtx.withMounts
      { registeredServices := devices, registeredFs := fss, dirtyMount := true } ms).dirtyMount = true := rfl
  unfold afterReceive
  rw [if_pos hdirty, mountDevices_planned accepts _ h]
  dsimp only
  split_ifs <;> rfl

/-- **One message**: the server does what is planned, if that goes. -/
theorem step_planned (t : Plan) (o : Message × Accepts) (h : Goes t.mounts t.failed) :
    step t.ctx o = if Goes (t.next o).mounts (t.next o).failed then some (t.next o).ctx else none := by
  obtain ⟨msg, accepts⟩ := o
  cases msg with
  | registerDisk name behind connectionHandle parsed =>
    cases parsed with
    | error e => exact (if_neg fun hgoes : Goes t.mounts true => Bool.noConfusion hgoes.1).symm
    | ok entries => exact afterReceive_planned accepts h _ _
  | registerFs fs => exact afterReceive_planned accepts h _ _
  | other => exact (if_pos h).symm

theorem goes_of_next (t : Plan) (o : Message × Accepts) (h : Goes (t.next o).mounts (t.next o).failed) :
    Goes t.mounts t.failed := by
  obtain ⟨msg, accepts⟩ := o
  cases msg with
  | registerDisk name behind connectionHandle parsed =>
    cases parsed with
    | error e => exact absurd h.1 Bool.noConfusion
    | ok entries => exact goes_of_append h
  | registerFs fs => exact goes_of_append h
  | other => exact h

end Planned

/-! ### Names and tables -/

/-- `parse_gpt` gives a table. -/
def Message.Parsed : Message → Prop
  | .registerDisk _ _ _ (.error _) => False
  | _ => True

/-- No disk with partitions has too long a name, once there is a file system. -/
def Plan.Named (t : Plan) : Prop :=
  t.registeredFs = [] ∨ ∀ device ∈ t.devices, device.partitions ≠ [] → device.name.length ≤ 80

/-- What has too long a name is not mounted. -/
def Unmounted (devices : List RegisteredDevice) : Prop :=
  ∀ device ∈ devices, 80 < device.name.length → ∀ part ∈ device.partitions, part.hasFs = false

section Failures

variable {accepts : Accepts} {fss : List RegisteredFs} {devices : List RegisteredDevice} {ms : Mounts} {failed : Bool}

theorem unmounted_offerAll (h : Unmounted devices) : Unmounted (offerAll accepts fss devices ms failed).devices := by
  intro device hdevice hlong part hpart
  obtain ⟨device, hmem, rfl⟩ := List.mem_map.mp hdevice
  obtain ⟨part, hmem', rfl⟩ := List.mem_map.mp hpart
  have hlong : 80 < device.name.length := hlong
  have hoffer : offer accepts fss device part = none := by
    unfold offer
    rw [if_pos (by simp [hlong])]
  unfold offered
  rw [hoffer]
  exact h device hmem hlong part hmem'

theorem named_offerAll : (offerAll accepts fss devices ms failed).Named ↔
    fss = [] ∨ ∀ device ∈ devices, device.partitions ≠ [] → device.name.length ≤ 80 := by
  simp [Plan.Named, offerAll, RegisteredDevice.offered]

/-- The offers fail if there is a device with too long a name. -/
theorem failed_offerAll (h : Unmounted devices) : (offerAll accepts fss devices ms failed).failed = false ↔
    failed = false ∧ (offerAll accepts fss devices ms failed).Named := by
  rw [named_offerAll]
  change (failed || devices.any (RegisteredDevice.fails fss)) = false ↔ _
  rw [Bool.or_eq_false_iff, List.any_eq_false]
  refine and_congr_right fun _ => ⟨fun hfails => ?_, fun hnames device hdevice => ?_⟩
  · by_cases hfss : fss = []
    · exact .inl hfss
    refine .inr fun device hdevice hparts => ?_
    by_contra hlong
    obtain ⟨part, hpart⟩ := List.exists_mem_of_ne_nil _ hparts
    refine hfails device hdevice (List.any_eq_true.mpr ⟨part, hpart, ?_⟩)
    have hlong : 80 < device.name.length := by omega
    simp [fails, h device hdevice hlong part hpart, hfss, hlong]
  · unfold RegisteredDevice.fails
    rw [List.any_eq_true]
    rintro ⟨part, hpart, hfail⟩
    have hask : (part.hasFs = false ∧ fss ≠ []) ∧ 80 < device.name.length := by simpa [fails] using hfail
    have hle := hnames.resolve_left hask.1.2 device hdevice (List.ne_nil_of_mem hpart)
    omega

theorem hasFs_partitionsOf {entries : List GptEntry} {part : RegisteredDevicePartition}
    (h : part ∈ partitionsOf entries) : part.hasFs = false := by
  obtain ⟨e, -, rfl⟩ := List.mem_map.mp h
  rfl

theorem unmounted_registered (h : Unmounted devices) (name behind : Name) (connectionHandle : ℕ) (entries : List GptEntry) :
    Unmounted (devices ++ [registeredDevice name behind connectionHandle entries]) := by
  intro device hdevice hlong part hpart
  rcases List.mem_append.mp hdevice with hdevice | hdevice
  · exact h device hdevice hlong part hpart
  · rw [List.mem_singleton] at hdevice
    subst hdevice
    exact hasFs_partitionsOf hpart

/-- What is to be shown of a plan: it has failed if a table was not parsed or a name is too long. -/
theorem failed_next {t : Plan} (h : Unmounted t.devices) (hnamed : t.failed = false → t.Named) (o : Message × Accepts) :
    Unmounted (t.next o).devices ∧
      ((t.next o).failed = false ↔ t.failed = false ∧ o.1.Parsed ∧ (t.next o).Named) ∧
      ((t.next o).Named → t.Named) := by
  obtain ⟨msg, accepts⟩ := o
  cases msg with
  | registerDisk name behind connectionHandle parsed =>
    cases parsed with
    | error e => exact ⟨h, by simp [Plan.next, Message.Parsed], fun hnext => hnext⟩
    | ok entries =>
      have hdevices := unmounted_registered h name behind connectionHandle entries
      refine ⟨unmounted_offerAll hdevices, ?_, fun hnext => ?_⟩
      · exact (failed_offerAll hdevices).trans (by simp [Message.Parsed, Plan.next])
      · exact (named_offerAll.mp hnext).imp_right fun hall device hdevice =>
          hall device (List.mem_append_left _ hdevice)
  | registerFs fs =>
    refine ⟨unmounted_offerAll h, ?_, fun hnext => ?_⟩
    · exact (failed_offerAll h).trans (by simp [Message.Parsed, Plan.next])
    · exact .inr ((named_offerAll.mp hnext).resolve_left (by simp))
  | other => exact ⟨h, by simpa [Plan.next, Message.Parsed] using hnamed, fun hnext => hnext⟩

theorem planned_append (ops : List (Message × Accepts)) (o : Message × Accepts) :
    planned (ops ++ [o]) = (planned ops).next o := by
  unfold planned
  rw [List.foldl_append]
  rfl

/-- **What fails** in a plan: a table that cannot be parsed, or a name that is too long. -/
theorem failed_planned (ops : List (Message × Accepts)) :
    (planned ops).failed = false ↔ (∀ o ∈ ops, o.1.Parsed) ∧ (planned ops).Named := by
  suffices h : Unmounted (planned ops).devices ∧
      ((planned ops).failed = false ↔ (∀ o ∈ ops, o.1.Parsed) ∧ (planned ops).Named) from h.2
  induction ops using List.reverseRecOn with
  | nil => exact ⟨fun _ h => absurd h List.not_mem_nil, by simp [planned, Plan.Named]⟩
  | append_singleton ops o ih =>
    obtain ⟨hunmounted, hfailed, hback⟩ := failed_next ih.1 (fun h => (ih.2.mp h).2) o
    rw [planned_append]
    refine ⟨hunmounted, hfailed.trans ⟨fun h => ?_, fun h => ?_⟩⟩
    · have hops := (ih.2.mp h.1).1
      refine ⟨fun x hx => ?_, h.2.2⟩
      rcases List.mem_append.mp hx with hx | hx
      · exact hops x hx
      · exact List.mem_singleton.mp hx ▸ h.2.1
    · refine ⟨ih.2.mpr ⟨fun x hx => h.1 x (List.mem_append_left _ hx), hback h.2⟩, ?_, h.2⟩
      exact h.1 o (List.mem_append_right _ (List.mem_singleton.mpr rfl))

end Failures

/-- **The server goes on** exactly as long as the tables can be parsed, no disk has too
long a name and the paths are distinct that it would give, whatever is registered in
which order and whatever the file systems say; and then it has mounted what was
planned. -/
theorem vfs_runs_iff (ops : List (Message × Accepts)) (ctx : VfsServerCtx) :
    run step ops {} = some ctx ↔ (∀ o ∈ ops, o.1.Parsed) ∧ (planned ops).Named ∧
      (paths (planned ops).mounts).Nodup ∧ ctx = (planned ops).ctx := by
  have hrun : run step ops (Plan.ctx {}) =
      if Goes (planned ops).mounts (planned ops).failed then some (planned ops).ctx else none :=
    Lib.run_guarded step_planned goes_of_next ops ⟨rfl, List.nodup_nil⟩
  rw [show ({} : VfsServerCtx) = Plan.ctx {} from rfl, hrun, ← and_assoc, ← failed_planned, ← and_assoc]
  change _ ↔ Goes (planned ops).mounts (planned ops).failed ∧ _
  split_ifs with h
  · simp [h, eq_comm]
  · simp [h]

/-! ### What is mounted -/

section Settles

/-- A partition has the file system `who`, or none. -/
def RegisteredDevicePartition.Has (part : RegisteredDevicePartition) (who : Option (RegisteredFs × ℕ)) : Prop :=
  part.hasFs = who.isSome ∧ ∀ e ∈ who, part.fsName = e.1.name

/-- The mounts that the partitions of a device should have: the endpoint of the first
file system that accepts. -/
def RegisteredDevice.accepted (accepts : Accepts) (fss : List RegisteredFs) (device : RegisteredDevice) : Mounts :=
  device.partitions.filterMap fun part =>
    (acceptor accepts fss (device.request part)).map fun e => (device.name, e.2)

/-- What a run of the server comes to, if the file systems do not change their minds. -/
structure Settled (accepts : Accepts) (ctx : VfsServerCtx) : Prop where
  has : ∀ device ∈ ctx.registeredServices, ∀ part ∈ device.partitions,
    part.Has (acceptor accepts ctx.registeredFs (device.request part))
  /-- in some order -/
  mounts : ∃ ms : Mounts, ctx.mountedFilesystems = placed ms ∧
    ms.Perm (ctx.registeredServices.flatMap (RegisteredDevice.accepted accepts ctx.registeredFs))
  /-- the third one would get the path of the second -/
  two : ∀ device ∈ ctx.registeredServices, device.partitions.countP RegisteredDevicePartition.hasFs ≤ 2
  counted : ctx.mountedDevicesCount = ctx.mountedFilesystems.length
  paths : (ctx.mountedFilesystems.map MountedFs.path).Nodup
  root : ctx.openRoot = ctx.mountedFilesystems.head?.map MountedFs.endpoint

variable {accepts : Accepts} {fss more : List RegisteredFs} {device : RegisteredDevice} {part : RegisteredDevicePartition}
  {devices : List RegisteredDevice} {ms : Mounts}

/-- The first one that accepts stays the first one. -/
theorem acceptor_append {request : Request} {e : RegisteredFs × ℕ} (h : acceptor accepts fss request = some e) :
    acceptor accepts (fss ++ more) request = some e := by
  unfold acceptor at h ⊢
  rw [List.findSome?_append, h]
  rfl

/-- **An offer**: a partition has the file system then that is the first to accept it. -/
theorem has_offered (h : part.hasFs = true → part.Has (acceptor accepts fss (device.request part)))
    (hok : fails fss device part = false) :
    (offered accepts fss device part).Has (acceptor accepts fss (device.request part)) := by
  unfold offered
  rw [offer_eq hok]
  cases hfs : part.hasFs with
  | true => exact h hfs
  | false =>
    rw [if_neg Bool.false_ne_true]
    cases acceptor accepts fss (device.request part) with
    | none => exact ⟨hfs, fun e he => nomatch he⟩
    | some e => exact ⟨rfl, fun e' he' => Option.some.inj he' ▸ rfl⟩

theorem request_offered : (device.offered accepts fss).request (offered accepts fss device part) = device.request part := by
  unfold offered
  split <;> rfl

theorem accepted_offered : (device.offered accepts fss).accepted accepts fss = device.accepted accepts fss := by
  unfold RegisteredDevice.accepted
  rw [RegisteredDevice.offered, List.filterMap_map]
  exact List.filterMap_congr fun part _ => by
    rw [Function.comp_apply, ← RegisteredDevice.offered, request_offered]
    rfl

/-- Some of what a list gives comes first, and the rest after it. -/
theorem perm_filterMap {α β : Type*} {f g h : α → Option β} {l : List α}
    (heq : ∀ x ∈ l, (g x).toList ++ (h x).toList = (f x).toList) : (l.filterMap g ++ l.filterMap h).Perm (l.filterMap f) := by
  simp only [List.filterMap_eq_flatMap_toList]
  exact (List.flatMap_append_perm l _ _).trans (List.Perm.flatMap_left l fun x hx => .of_eq (heq x hx))

/-- The invariant of a plan. -/
structure PlanSettled (accepts : Accepts) (t : Plan) : Prop where
  has : ∀ device ∈ t.devices, ∀ part ∈ device.partitions, part.Has (acceptor accepts t.registeredFs (device.request part))
  mounts : t.mounts.Perm (t.devices.flatMap (RegisteredDevice.accepted accepts t.registeredFs))

/-- The mounts of a device before an offer to more file systems, and the new ones. -/
theorem perm_newMounts (hhas : ∀ part ∈ device.partitions, part.Has (acceptor accepts fss (device.request part)))
    (hok : device.fails (fss ++ more) = false) :
    (device.accepted accepts fss ++ device.newMounts accepts (fss ++ more)).Perm (device.accepted accepts (fss ++ more)) := by
  refine perm_filterMap fun part hpart => ?_
  have hpartok : fails (fss ++ more) device part = false :=
    Bool.eq_false_iff.mpr fun hfail => Bool.eq_false_iff.mp hok (List.any_eq_true.mpr ⟨part, hpart, hfail⟩)
  unfold newMount
  rw [offer_eq hpartok, (hhas part hpart).1]
  cases hwho : acceptor accepts fss (device.request part) with
  | none => rfl
  | some e => rw [acceptor_append hwho]; rfl

/-- The mounts of a device that is new. -/
theorem newMounts_of_new (hnew : ∀ part ∈ device.partitions, part.hasFs = false) (hok : device.fails fss = false) :
    device.newMounts accepts fss = device.accepted accepts fss := by
  refine List.filterMap_congr fun part hpart => ?_
  have hpartok : fails fss device part = false :=
    Bool.eq_false_iff.mpr fun hfail => Bool.eq_false_iff.mp hok (List.any_eq_true.mpr ⟨part, hpart, hfail⟩)
  unfold newMount
  rw [offer_eq hpartok, hnew part hpart, if_neg Bool.false_ne_true]

/-- **More devices and more file systems**: all that is accepted is mounted after the offer. -/
theorem settled_offerAll {t : Plan} (h : PlanSettled accepts t) (more : List RegisteredFs) {new : List RegisteredDevice}
    (hnew : ∀ device ∈ new, ∀ part ∈ device.partitions, part.hasFs = false)
    (hok : (offerAll accepts (t.registeredFs ++ more) (t.devices ++ new) t.mounts t.failed).failed = false) :
    PlanSettled accepts (offerAll accepts (t.registeredFs ++ more) (t.devices ++ new) t.mounts t.failed) := by
  have hfails : ∀ device ∈ t.devices ++ new, device.fails (t.registeredFs ++ more) = false := fun device hdevice =>
    Bool.eq_false_iff.mpr (List.any_eq_false.mp (Bool.or_eq_false_iff.mp hok).2 device hdevice)
  constructor
  · intro device hdevice part hpart
    obtain ⟨device, hmem, rfl⟩ := List.mem_map.mp hdevice
    obtain ⟨part, hmem', rfl⟩ := List.mem_map.mp hpart
    have hpartok : fails (t.registeredFs ++ more) device part = false :=
      Bool.eq_false_iff.mpr (List.any_eq_false.mp (hfails device hmem) part hmem')
    rw [request_offered]
    refine has_offered (fun hfs => ?_) hpartok
    rcases List.mem_append.mp hmem with hold | hadded
    · -- it has the file system that was the first to accept it
      obtain ⟨hwho, hname⟩ := h.has device hold part hmem'
      rw [hfs] at hwho
      obtain ⟨e, he⟩ := Option.isSome_iff_exists.mp hwho.symm
      rw [acceptor_append he, ← he]
      exact ⟨hfs.trans hwho, hname⟩
    · rw [hnew device hadded part hmem'] at hfs
      cases hfs
  · have hold : (t.mounts ++ t.devices.flatMap (RegisteredDevice.newMounts accepts (t.registeredFs ++ more))).Perm
        (t.devices.flatMap (RegisteredDevice.accepted accepts (t.registeredFs ++ more))) := by
      refine (h.mounts.append_right _).trans ((List.flatMap_append_perm _ _ _).trans
        (.flatMap_left _ fun device hdevice => ?_))
      exact perm_newMounts (h.has device hdevice) (hfails device (List.mem_append_left _ hdevice))
    have hadded : (new.flatMap (RegisteredDevice.newMounts accepts (t.registeredFs ++ more))).Perm
        (new.flatMap (RegisteredDevice.accepted accepts (t.registeredFs ++ more))) :=
      .flatMap_left _ fun device hdevice =>
        .of_eq (newMounts_of_new (hnew device hdevice) (hfails device (List.mem_append_right _ hdevice)))
    unfold offerAll
    simp only [List.flatMap_map, accepted_offered, List.flatMap_append]
    rw [← List.append_assoc]
    exact hold.append hadded

/-- **One message** leaves nothing that a file system accepts. -/
theorem settled_next {t : Plan} (h : PlanSettled accepts t) (msg : Message) (hok : (t.next (msg, accepts)).failed = false) :
    PlanSettled accepts (t.next (msg, accepts)) := by
  cases msg with
  | registerDisk name behind connectionHandle parsed =>
    cases parsed with
    | error e => cases hok
    | ok entries =>
      have hnew : ∀ device ∈ [registeredDevice name behind connectionHandle entries], ∀ part ∈ device.partitions,
          part.hasFs = false := fun device hdevice part hpart => by
        rw [List.mem_singleton.mp hdevice] at hpart
        exact hasFs_partitionsOf hpart
      have hall := settled_offerAll h [] hnew
      rw [List.append_nil] at hall
      exact hall hok
  | registerFs fs =>
    have hnew : ∀ device ∈ ([] : List RegisteredDevice), ∀ part ∈ device.partitions, part.hasFs = false :=
      fun _ hdevice => absurd hdevice List.not_mem_nil
    have hall := settled_offerAll h [fs] hnew
    rw [List.append_nil] at hall
    exact hall hok
  | other => exact h

theorem settled_planned (messages : List Message)
    (h : Goes (planned (messages.map fun msg => (msg, accepts))).mounts (planned (messages.map fun msg => (msg, accepts))).failed) :
    PlanSettled accepts (planned (messages.map fun msg => (msg, accepts))) := by
  induction messages using List.reverseRecOn with
  | nil => exact ⟨fun _ hdevice => absurd hdevice List.not_mem_nil, List.Perm.refl _⟩
  | append_singleton messages msg ih =>
    rw [List.map_append, List.map_singleton, planned_append] at h ⊢
    exact settled_next (ih (goes_of_next _ _ h)) msg h.1

/-- The paths of the mounts of one name: the root, and one more. -/
theorem countP_le_two {ms : Mounts} (h : (paths ms).Nodup) (name : Name) : (ms.countP fun m => m.1 = name) ≤ 2 := by
  cases ms with
  | nil => simp
  | cons m ms =>
    have hone : (ms.map fun m => m.1.drop 1).count (name.drop 1) ≤ 1 :=
      List.nodup_iff_count_le_one.mp (List.nodup_cons.mp h).2 _
    have hle : (ms.countP fun m => m.1 = name) ≤ (ms.map fun m => m.1.drop 1).count (name.drop 1) := by
      rw [List.count, List.countP_map]
      refine List.countP_mono_left fun m _ hm => ?_
      simpa using congrArg (List.drop 1) (of_decide_eq_true hm)
    rw [List.countP_cons]
    split_ifs <;> omega

/-- The mounts of a device have its name, and there is one for each partition with a file system. -/
theorem countP_accepted (hhas : ∀ part ∈ device.partitions, part.Has (acceptor accepts fss (device.request part))) :
    ((device.accepted accepts fss).countP fun m => m.1 = device.name) =
      device.partitions.countP RegisteredDevicePartition.hasFs := by
  have hname : ∀ m ∈ device.accepted accepts fss, m.1 = device.name := fun m hm => by
    obtain ⟨part, -, hpart⟩ := List.mem_filterMap.mp hm
    obtain ⟨e, -, rfl⟩ := Option.map_eq_some_iff.mp hpart
    rfl
  rw [List.countP_eq_length.mpr fun m hm => decide_eq_true (hname m hm)]
  unfold RegisteredDevice.accepted
  rw [List.length_filterMap_eq_countP]
  refine List.countP_congr fun part hpart => ?_
  rw [Option.isSome_map, (hhas part hpart).1]

theorem openRoot_placed (t : Plan) : t.ctx.openRoot = t.ctx.mountedFilesystems.head?.map MountedFs.endpoint := by
  unfold VfsServerCtx.openRoot
  dsimp only [Plan.ctx, VfsServerCtx.withMounts]
  cases t.mounts with
  | nil => rfl
  | cons m ms => simp [placed, paths]

/-- **What is mounted** after any messages that the server survives, in whatever
order they come: each partition that some registered file system accepts, once, with
the endpoint of the first one, and no other; all under paths of their own, and the
first one is the root. -/
theorem vfs_settled (accepts : Accepts) (messages : List Message) {ctx : VfsServerCtx}
    (h : run step (messages.map fun msg => (msg, accepts)) {} = some ctx) : Settled accepts ctx := by
  obtain ⟨hparsed, hnamed, hpaths, rfl⟩ := (vfs_runs_iff _ ctx).mp h
  have hplan := settled_planned messages ⟨(failed_planned _).mpr ⟨hparsed, hnamed⟩, hpaths⟩
  exact
    { has := hplan.has
      mounts := ⟨_, rfl, hplan.mounts⟩
      two := by
        intro device hdevice
        have hle := countP_le_two hpaths device.name
        rw [hplan.mounts.countP_eq] at hle
        rw [← countP_accepted (hplan.has device hdevice)]
        refine Nat.le_trans (List.Sublist.countP_le ?_) hle
        exact List.sublist_flatten_of_mem (List.mem_map_of_mem hdevice)
      counted := by simp [Plan.ctx, VfsServerCtx.withMounts, placed]
      paths := by
        rw [← map_path_placed] at hpaths
        exact hpaths
      root := openRoot_placed _ }

/-- A disk with two partitions, and then a file system. -/
def diskFirst : List Message :=
  [.registerDisk ['n', '0'] [] 2 (.ok [⟨0, 9, []⟩, ⟨10, 19, []⟩]), .registerFs ⟨['e'], 1⟩]

/-- It accepts the partition that begins at 0. -/
def firstOnly : Accepts := fun _ request => if request.beginLba = 0 then some 7 else none

theorem vfs_settled_diskFirst : ∃ ctx, run step (diskFirst.map fun msg => (msg, firstOnly)) {} = some ctx ∧
    Settled firstOnly ctx :=
  ⟨_, rfl, vfs_settled firstOnly diskFirst rfl⟩

end Settles

end VfsMounts
end WingOS
