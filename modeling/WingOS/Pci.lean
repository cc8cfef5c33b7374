/-
# PCI scan

`PciController::scan`, which goes through the functions of bus 0, and from each bridge
through those of its secondary bus (`dev/pci/pci.cpp`, `dev/pci/pci.hpp`). It is the walk
`Lib.unfold` (`scanBus_eq`): no record is kept of the buses that were scanned. So it
does not end where buses lead around in a circle, and lists the functions of a bus once
for each chain of bridges to it. And where function 0 is a bridge, it returns before it
comes to the other functions.

Where none of this happens, it lists each function that is there exactly once, and
nothing else (`scan_exact_iff`).

Key definitions: `scanDev`, `scanBus`, `scan`, `Listed`, `ScansExactly`, `TreeLike`.
Key theorems: `scanBus_eq`, `scan_exact_iff`.
-/
import Mathlib.Data.BitVec
import Mathlib.Data.FinEnum
import Mathlib.Data.List.FinRange
import WingOS.Lib.Unfolding

namespace WingOS
namespace Pci

open Lib

/-- What a read of each function's registers gives. -/
abbrev ConfigSpace := (bus : BitVec 8) → (device : Fin 32) → (function : Fin 8) → (off : BitVec 8) → BitVec 32

/-- `irq` is not known yet, and -1 in all. -/
structure PciDevice where
  bus : BitVec 8
  device : Fin 32
  function : Fin 8
  deriving DecidableEq

namespace PciDevice

variable (config : ConfigSpace) (d : PciDevice)

def readConfig (off : BitVec 8) : BitVec 32 := config d.bus d.device d.function off

def vendorId : BitVec 16 := (d.readConfig config 0x0).extractLsb' 0 16

def deviceId : BitVec 16 := (d.readConfig config 0x0).extractLsb' 16 16

def classCode : BitVec 8 := (d.readConfig config 0x8).extractLsb' 24 8

/-- `header_type` of `PciReg3`. -/
def headerType : BitVec 8 := (d.readConfig config 0xc).extractLsb' 16 8

def valid : Bool := d.vendorId config ≠ 0xFFFF && d.deviceId config ≠ 0xFFFF

def header : BitVec 8 := d.headerType config &&& ~~~0x80

def isBridge : Bool := d.header config = 0x01 && d.classCode config = 0x6

/-- `secondary_bus_number` of `PciBridgeRegSecBus`. -/
def subBus : BitVec 8 := (d.readConfig config 0x18).extractLsb' 8 8

/-- Function 0 of the same device. -/
def first : PciDevice := { d with function := 0 }

/-- It is function 0 that says so. -/
def hasMultipleFunctions : Bool := d.first.headerType config &&& 0x80 ≠ 0

end PciDevice

section Scan

variable (config : ConfigSpace)

/-- The loop's body, for the functions 1 to 7. -/
def scanFunction (scanBus : BitVec 8 → List PciDevice → Option (List PciDevice)) (devices : List PciDevice)
    (subDev : PciDevice) : Option (List PciDevice) :=
  if !subDev.valid config then some devices
  else if subDev.isBridge config then scanBus (subDev.subBus config) devices
  else some (devices ++ [subDev])

def scanDev (scanBus : BitVec 8 → List PciDevice → Option (List PciDevice)) (bus : BitVec 8)
    (devices : List PciDevice) (dev : Fin 32) : Option (List PciDevice) :=
  let device : PciDevice := { bus, device := dev, function := 0 }
  if device.valid config then
    if device.isBridge config then scanBus (device.subBus config) devices
    else
      let devices := devices ++ [device]
      if device.hasMultipleFunctions config then
        [1, 2, 3, 4, 5, 6, 7].foldlM
          (fun devices i => scanFunction config scanBus devices { bus, device := dev, function := i }) devices
      else some devices
  else some devices

/-- `fuel` is how deep the calls may go. -/
def scanBus : (fuel : ℕ) → BitVec 8 → List PciDevice → Option (List PciDevice)
  | 0, _, _ => none
  | fuel + 1, bus, devices => (List.finRange 32).foldlM (scanDev config (scanBus fuel) bus) devices

def scan (fuel : ℕ) : Option (List PciDevice) := scanBus config fuel 0 []

end Scan

section Exact

variable (config : ConfigSpace)

/-- It is there: the functions 1 to 7 only if function 0 is, and says so. -/
def Counts (d : PciDevice) : Prop :=
  d.valid config ∧ (d.function = 0 ∨ d.first.valid config ∧ d.hasMultipleFunctions config)

inductive ReachableBus : BitVec 8 → Prop where
  | root : ReachableBus 0
  | secondary (d : PciDevice) (hd : Counts config d) (hbridge : d.isBridge config) (hbus : ReachableBus d.bus) :
      ReachableBus (d.subBus config)

/-- It is there, not a bridge, and on a bus that can be reached. -/
def Listed (d : PciDevice) : Prop := Counts config d ∧ ¬d.isBridge config ∧ ReachableBus config d.bus

/-- The scan ends, and has each function once that it should list, and no other. -/
def ScansExactly : Prop := ∃ devices, (∃ enough, ∀ fuel ≥ enough, scan config fuel = some devices) ∧
  ∀ d, (Listed config d → devices.count d = 1) ∧ (¬Listed config d → d ∉ devices)

/-- The scan comes to it: it is there, and function 0 not a bridge. -/
def Visited (d : PciDevice) : Prop :=
  d.valid config ∧ (d.function = 0 ∨ d.first.valid config ∧ ¬d.first.isBridge config ∧ d.hasMultipleFunctions config)

instance (d : PciDevice) : Decidable (Visited config d) := inferInstanceAs (Decidable (_ ∧ _))

/-- A bridge of the bus that the scan goes down. -/
def Leads (bus : BitVec 8) (d : PciDevice) : Prop := d.bus = bus ∧ Visited config d ∧ d.isBridge config

/-- When the scan is exact. -/
structure TreeLike : Prop where
  /-- No bus leads back to itself. -/
  acyclic : ∀ bus, Relation.ReflTransGen (Goes (Leads config) (PciDevice.subBus config)) 0 bus →
    ¬Relation.TransGen (Goes (Leads config) (PciDevice.subBus config)) bus bus
  /-- No function that should be listed is behind a function 0 that is a bridge. -/
  first : ∀ d, Listed config d → d.function ≠ 0 → ¬d.first.isBridge config
  /-- Its bus has exactly one chain of bridges to it. -/
  unique : ∀ d, Listed config d → ∃! bridges, Path (Leads config) (PciDevice.subBus config) 0 bridges d.bus

end Exact

section Walk

variable (config : ConfigSpace)

/-- What a function is for the scan, if it is anything. -/
def item (d : PciDevice) : Option (PciDevice ⊕ PciDevice) :=
  if Visited config d then some (if d.isBridge config then .inr d else .inl d) else none

def functions (bus : BitVec 8) (dev : Fin 32) : List PciDevice :=
  (List.finRange 8).map fun i => { bus, device := dev, function := i }

def devItems (bus : BitVec 8) (dev : Fin 32) : List (PciDevice ⊕ PciDevice) :=
  (functions bus dev).filterMap (item config)

def items (bus : BitVec 8) : List (PciDevice ⊕ PciDevice) :=
  (List.finRange 32).flatMap (devItems config bus)

end Walk

variable {config : ConfigSpace} {d : PciDevice} {bus : BitVec 8} {dev : Fin 32}

theorem item_eq_some_iff {x : PciDevice ⊕ PciDevice} : item config d = some x ↔
    Visited config d ∧ (d.isBridge config ∧ x = .inr d ∨ ¬d.isBridge config ∧ x = .inl d) := by
  unfold item
  by_cases hvisited : Visited config d <;> by_cases hbridge : d.isBridge config = true <;>
    simp [hvisited, hbridge, eq_comm]

theorem items_eq : items config bus = ((List.finRange 32).flatMap (functions bus)).filterMap (item config) :=
  List.filterMap_flatMap.symm

theorem mem_functions : d ∈ (List.finRange 32).flatMap (functions bus) ↔ d.bus = bus := by
  simp only [functions, List.mem_flatMap, List.mem_finRange, List.mem_map, true_and]
  constructor
  · rintro ⟨dev, i, rfl⟩
    rfl
  · rintro rfl
    exact ⟨d.device, d.function, rfl⟩

theorem mem_items {x : PciDevice ⊕ PciDevice} : x ∈ items config bus ↔
    ∃ d, d.bus = bus ∧ Visited config d ∧ (d.isBridge config ∧ x = .inr d ∨ ¬d.isBridge config ∧ x = .inl d) := by
  simp only [items_eq, List.mem_filterMap, mem_functions, item_eq_some_iff]

theorem inl_mem_items : .inl d ∈ items config bus ↔ d.bus = bus ∧ Visited config d ∧ ¬d.isBridge config := by
  simp [mem_items]

theorem edge_items : Edge (items config) = Leads config := by
  funext bus d
  simp [Edge, Leads, mem_items]

theorem items_nodup (bus : BitVec 8) : (items config bus).Nodup := by
  rw [items_eq]
  refine List.Nodup.filterMap (fun d d' x hd hd' => ?_) (List.nodup_flatMap.mpr ⟨fun dev _ => ?_, ?_⟩)
  · rcases item_eq_some_iff.mp hd with ⟨_, ⟨_, rfl⟩ | ⟨_, rfl⟩⟩ <;>
      rcases item_eq_some_iff.mp hd' with ⟨_, ⟨_, heq⟩ | ⟨_, heq⟩⟩ <;> cases heq <;> rfl
  · exact (List.nodup_finRange 8).map fun i j heq => (PciDevice.mk.inj heq).2.2
  · refine (List.nodup_finRange 32).imp fun {dev dev'} hne d hd hd' => ?_
    obtain ⟨i, _, rfl⟩ := List.mem_map.mp hd
    obtain ⟨j, _, heq⟩ := List.mem_map.mp hd'
    exact hne (PciDevice.mk.inj heq).2.1.symm

section Refines

variable {w : BitVec 8 → Option (List PciDevice)} {walk : BitVec 8 → List PciDevice → Option (List PciDevice)}

theorem item_of_not_valid (h : d.valid config = false) : item config d = none :=
  if_neg fun hvisited => Bool.false_ne_true (h.symm.trans hvisited.1)

theorem item_of_valid (h : d.valid config = true)
    (hfirst : d.function = 0 ∨ d.first.valid config ∧ ¬d.first.isBridge config ∧ d.hasMultipleFunctions config) :
    item config d = some (if d.isBridge config then .inr d else .inl d) :=
  if_pos ⟨h, hfirst⟩

theorem devItems_eq : devItems config bus dev = (item config ⟨bus, dev, 0⟩).toList ++
    ([1, 2, 3, 4, 5, 6, 7] : List (Fin 8)).flatMap fun i => (item config ⟨bus, dev, i⟩).toList := by
  rw [devItems, functions, List.filterMap_map, List.filterMap_eq_flatMap_toList]
  rfl

/-- Where function 0 does not let the scan come to the others, there is nothing else. -/
theorem devItems_of_alone (h : ¬((⟨bus, dev, 0⟩ : PciDevice).valid config ∧ ¬(⟨bus, dev, 0⟩ : PciDevice).isBridge config ∧
    (⟨bus, dev, 0⟩ : PciDevice).hasMultipleFunctions config)) :
    devItems config bus dev = (item config ⟨bus, dev, 0⟩).toList := by
  rw [devItems_eq, List.append_right_eq_self, List.flatMap_eq_nil_iff]
  intro i hi
  have hne : i ≠ 0 := by
    rintro rfl
    revert hi
    decide
  have hnone : item config ⟨bus, dev, i⟩ = none := if_neg fun hvisited => hvisited.2.elim hne h
  rw [hnone]
  rfl

theorem scanFunction_eq (hwalk : ∀ bus devices, walk bus devices = (w bus).map (devices ++ ·))
    (hfirst : d.first.valid config ∧ ¬d.first.isBridge config ∧ d.hasMultipleFunctions config)
    (devices : List PciDevice) : scanFunction config walk devices d =
      (collect id (fun e => w (e.subBus config)) (item config d).toList).map (devices ++ ·) := by
  unfold scanFunction
  cases hvalid : d.valid config with
  | false => simp [item_of_not_valid hvalid, collect]
  | true =>
    rw [item_of_valid hvalid (.inr hfirst)]
    cases hbridge : d.isBridge config with
    | false => simp [collect]
    | true =>
      simp only [Bool.not_true, Bool.false_eq_true, if_false, if_true, hwalk]
      cases h : w (d.subBus config) <;> simp [collect, h]

theorem scanDev_eq (hwalk : ∀ bus devices, walk bus devices = (w bus).map (devices ++ ·))
    (devices : List PciDevice) : scanDev config walk bus devices dev =
      (collect id (fun e => w (e.subBus config)) (devItems config bus dev)).map (devices ++ ·) := by
  simp only [scanDev]
  cases hvalid : (⟨bus, dev, 0⟩ : PciDevice).valid config with
  | false => simp [devItems_of_alone, hvalid, item_of_not_valid hvalid, collect]
  | true =>
    have hitem := item_of_valid hvalid (.inl rfl)
    cases hbridge : (⟨bus, dev, 0⟩ : PciDevice).isBridge config with
    | true =>
      rw [devItems_of_alone (by simp [hbridge]), hitem, hwalk]
      cases h : w ((⟨bus, dev, 0⟩ : PciDevice).subBus config) <;> simp [collect, hbridge, h]
    | false =>
      cases hmulti : (⟨bus, dev, 0⟩ : PciDevice).hasMultipleFunctions config with
      | false => simp [devItems_of_alone, hmulti, hitem, hbridge, collect]
      | true =>
        have hfirst : ∀ i, (⟨bus, dev, i⟩ : PciDevice).first.valid config ∧
            ¬(⟨bus, dev, i⟩ : PciDevice).first.isBridge config ∧
            (⟨bus, dev, i⟩ : PciDevice).hasMultipleFunctions config := fun i =>
          ⟨hvalid, fun h => Bool.false_ne_true (hbridge.symm.trans h), hmulti⟩
        have hloop := foldlM_eq_collect (fun l i (_ : i ∈ [1, 2, 3, 4, 5, 6, 7]) =>
          scanFunction_eq (d := ⟨bus, dev, i⟩) hwalk (hfirst i) l) (devices ++ [⟨bus, dev, 0⟩])
        simp only [if_true, Bool.false_eq_true, if_false]
        rw [hloop, devItems_eq, collect_append, hitem, hbridge]
        simp [collect, Function.comp_def]

/-- **The scan is the walk** that keeps no record. -/
theorem scanBus_eq (n : ℕ) (bus : BitVec 8) (devices : List PciDevice) : scanBus config n bus devices =
    (unfold (items config) (PciDevice.subBus config) n bus).map (devices ++ ·) := by
  induction n generalizing bus devices with
  | zero => rfl
  | succ n ih =>
    rw [scanBus, unfold, items]
    have hdev : ∀ l, ∀ dev ∈ List.finRange 32, scanDev config (scanBus config n) bus l dev =
        (collect id (fun e => unfold (items config) (PciDevice.subBus config) n (e.subBus config))
          (devItems config bus dev)).map (l ++ ·) := fun l dev _ => scanDev_eq ih l
    exact foldlM_eq_collect hdev devices

theorem scan_eq (n : ℕ) : scan config n = unfold (items config) (PciDevice.subBus config) n 0 := by
  rw [scan, scanBus_eq]
  simp

end Refines

theorem visited_counts (h : Visited config d) : Counts config d :=
  ⟨h.1, h.2.imp_right fun hfirst => ⟨hfirst.1, hfirst.2.2⟩⟩

theorem reachableBus_of_path {bridges : List PciDevice} {bus' : BitVec 8}
    (h : Path (Leads config) (PciDevice.subBus config) bus bridges bus') (hbus : ReachableBus config bus) :
    ReachableBus config bus' := by
  induction bridges generalizing bus with
  | nil => exact h ▸ hbus
  | cons e es ih =>
    obtain ⟨⟨rfl, hvisited, hbridge⟩, hpath⟩ := h
    exact ih hpath (.secondary e (visited_counts hvisited) hbridge hbus)

theorem listed_of_mem {n : ℕ} {devices : List PciDevice} (h : scan config n = some devices) (hd : d ∈ devices) :
    Listed config d := by
  rw [scan_eq] at h
  obtain ⟨bridges, x, hpath, hx⟩ := (mem_unfold_iff h).mp hd
  obtain ⟨rfl, hvisited, hbridge⟩ := inl_mem_items.mp hx
  rw [edge_items] at hpath
  exact ⟨visited_counts hvisited, hbridge, reachableBus_of_path hpath .root⟩

theorem count_eq_one_iff {n : ℕ} {devices : List PciDevice} (h : scan config n = some devices) :
    devices.count d = 1 ↔ (Visited config d ∧ ¬d.isBridge config) ∧
      ∃! bridges, Path (Leads config) (PciDevice.subBus config) 0 bridges d.bus := by
  rw [scan_eq] at h
  rw [count_unfold_eq_one_iff items_nodup h, edge_items]
  simp only [inl_mem_items]
  constructor
  · rintro ⟨bridges, ⟨x, hpath, rfl, hd⟩, huniq⟩
    exact ⟨hd, bridges, hpath, fun bridges' hpath' => huniq bridges' ⟨d.bus, hpath', rfl, hd⟩⟩
  · rintro ⟨hd, bridges, hpath, huniq⟩
    refine ⟨bridges, ⟨d.bus, hpath, rfl, hd⟩, ?_⟩
    rintro bridges' ⟨x, hpath', rfl, _⟩
    exact huniq bridges' hpath'

theorem scan_ends_iff : (∃ n, (scan config n).isSome = true) ↔
    ∀ bus, Relation.ReflTransGen (Goes (Leads config) (PciDevice.subBus config)) 0 bus →
      ¬Relation.TransGen (Goes (Leads config) (PciDevice.subBus config)) bus bus := by
  simp only [scan_eq]
  rw [unfold_isSome_iff, edge_items, acc_iff_acyclic]

theorem scan_mono {n : ℕ} {devices : List PciDevice} (h : scan config n = some devices) {m : ℕ} (hnm : n ≤ m) :
    scan config m = some devices := by
  rw [scan_eq] at h ⊢
  rw [unfold_mono hnm (Option.isSome_iff_exists.mpr ⟨devices, h⟩), h]

theorem visited_of_listed (h : Listed config d) (hfirst : d.function ≠ 0 → ¬d.first.isBridge config) :
    Visited config d := by
  refine ⟨h.1.1, ?_⟩
  by_cases hzero : d.function = 0
  · exact .inl hzero
  · obtain ⟨hvalid, hmulti⟩ := h.1.2.resolve_left hzero
    exact .inr ⟨hvalid, hfirst hzero, hmulti⟩

/-- **The scan is exact** for each configuration space if and only if its bridges make a tree of the
buses, and hide no function. -/
theorem scan_exact_iff (config : ConfigSpace) : ScansExactly config ↔ TreeLike config := by
  constructor
  · rintro ⟨devices, ⟨enough, henough⟩, hexact⟩
    have hscan := henough enough le_rfl
    have honce : ∀ d, Listed config d → _ := fun d hd => (count_eq_one_iff hscan).mp ((hexact d).1 hd)
    refine ⟨scan_ends_iff.mp ⟨enough, Option.isSome_iff_exists.mpr ⟨devices, hscan⟩⟩, fun d hd hne => ?_,
      fun d hd => (honce d hd).2⟩
    exact ((honce d hd).1.1.2.resolve_left hne).2.1
  · intro h
    obtain ⟨n, hn⟩ := scan_ends_iff.mpr h.acyclic
    obtain ⟨devices, hscan⟩ := Option.isSome_iff_exists.mp hn
    refine ⟨devices, ⟨n, fun m hm => scan_mono hscan hm⟩, fun d => ⟨fun hd => ?_, fun hd hmem => ?_⟩⟩
    · exact (count_eq_one_iff hscan).mpr ⟨⟨visited_of_listed hd (h.first d hd), hd.2.1⟩, h.unique d hd⟩
    · exact hd (listed_of_mem hscan hmem)

/-- A bridge on bus 0, and its secondary bus is bus 0. -/
def selfBridge : ConfigSpace := fun bus device function off =>
  if bus = 0 ∧ device = 0 ∧ function = 0 then
    if off = 0x0 then 0x244e8086 else if off = 0x8 then 0x06040000 else if off = 0xc then 0x00010000 else 0
  else 0xffffffff

theorem scanBus_selfBridge (n : ℕ) (devices : List PciDevice) : scanBus selfBridge n 0 devices = none := by
  induction n generalizing devices with
  | zero => rfl
  | succ n ih =>
    have hdev : scanDev selfBridge (scanBus selfBridge n) 0 devices 0 = none := ih devices
    rw [scanBus, List.finRange_succ, List.foldlM_cons, hdev]
    rfl

/-- It is scanned for ever. -/
theorem selfBridge_not_exact : ¬ScansExactly selfBridge := by
  rintro ⟨devices, ⟨enough, henough⟩, _⟩
  have hscan := henough enough le_rfl
  rw [scan, scanBus_selfBridge] at hscan
  cases hscan

end Pci
end WingOS
