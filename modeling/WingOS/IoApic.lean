/-
# Legacy interrupts

The IOAPICs and the interrupt source overrides of a MADT, and the loop of
`apic_initialize` that gives each of the first 32 interrupts its vector
(`hw/acpi/apic.cpp`, `hw/acpi/ioapic.cpp`, `hw/acpi/ioapic.hpp`). An IOAPIC is a device
of its own: its entry in the MADT, its version register, and the registers of its
redirection table, which the loop writes. The loop routes to CPU 0, which is always
there.

The highest interrupt of an IOAPIC is its base plus the *index* of its last entry, but
`query_from_irq` takes the index for a count, so that the last interrupt of each IOAPIC is
not found, and never routed (`query_eq`). An entry is in the end what the last
interrupt that is routed to it makes of it (`legacyLoop_entry`). This is not the override
if the target has a lower number than 32, and comes after the source, and is not
a source itself: it is then routed to its own entry later. And for a level-triggered
interrupt another bit is set than that of the trigger mode (`override_routed_iff`).

Key definitions: `queryFromIrq`, `rawRedirectInterrupt`, `redirectInterrupt`,
`legacyLoop`, `route`, `lastRouted`, `Routed`.
Key theorems: `query_eq`, `legacyLoop_entry`, `override_routed_iff`,
`legacy_interrupts_routed_iff`.
-/
import Mathlib.Data.BitVec
import Mathlib.Data.List.Nodup
import Mathlib.Data.List.Range

namespace WingOS
namespace IoApic

structure MadtEntryIoapic where
  ioapicId : UInt8
  ioapicAddr : UInt32
  globalSystemInterruptBase : UInt32

structure MadtEntryIso where
  busSource : UInt8
  irqSource : UInt8
  globalSystemInterrupt : UInt32
  flags : UInt16

/-- An IOAPIC that was loaded, with what its version register has. -/
structure IOApic where
  entry : MadtEntryIoapic
  version : BitVec 32

namespace IOApic

variable (a : IOApic)

/-- Its slot in the array. -/
def slot : ℕ := a.entry.ioapicId.toNat

def interruptBase : ℕ := a.entry.globalSystemInterruptBase.toNat

def maxRedirect : ℕ := ((a.version &&& 0x00FF0000) >>> 16).toNat

/-- The last interrupt of the IOAPIC. -/
def last : ℕ := a.interruptBase + a.maxRedirect

/-- The IOAPIC has an entry for the interrupt. -/
def Covers (g : ℕ) : Prop := a.interruptBase ≤ g ∧ g ≤ a.last

end IOApic

/-- `ioapics`, where an IOAPIC that is not there was not loaded. -/
abbrev Slots := ℕ → Option IOApic

def maxIoapic : ℕ := 256

/-- `IOApic::initialize`. -/
def loadIOApic (index : ℕ) (a : IOApic) (ioapics : Slots) : Slots :=
  if maxIoapic ≤ index then ioapics else fun i => if i = a.slot then some a else ioapics i

/-- The entries of the MADT for IOAPICs, which are counted. -/
def loadIOApics : (count : ℕ) → List IOApic → Slots → Slots
  | _, [], ioapics => ioapics
  | count, a :: as, ioapics => loadIOApics (count + 1) as (loadIOApic count a ioapics)

def maxIso : ℕ := 256

/-- `update_interrupt_source_override`. -/
def updateInterruptSourceOverride (iso : List MadtEntryIso) (entry : MadtEntryIso) : List MadtEntryIso :=
  if maxIso - 1 ≤ iso.length then iso else iso ++ [entry]

/-- `query_from_irq`: the slot, if there is one. -/
def queryFromIrq (ioapics : Slots) (irq : ℕ) : Option ℕ :=
  (List.range maxIoapic).find? fun i =>
    (ioapics i).any fun a => a.interruptBase ≤ irq && irq < a.interruptBase + a.maxRedirect

/-- `IoapicRedirectionReg`; delivery, destination mode and `pending` are zero. -/
structure IoapicRedirectionReg where
  vector : UInt8
  polarity : Bool
  levelTrigeredReceived : Bool
  isLevelSensitive : Bool
  mask : Bool
  destination : UInt8

/-- `raw`. -/
def IoapicRedirectionReg.raw (reg : IoapicRedirectionReg) : BitVec 64 :=
  reg.destination.toBitVec ++ (0 : BitVec 39) ++ BitVec.ofBool reg.mask ++ BitVec.ofBool reg.isLevelSensitive ++
    BitVec.ofBool reg.levelTrigeredReceived ++ BitVec.ofBool reg.polarity ++ (0 : BitVec 5) ++ reg.vector.toBitVec

/-- The registers of the IOAPIC in each slot. -/
abbrev Registers := ℕ → ℕ → BitVec 32

def Registers.write (regs : Registers) (slot reg : ℕ) (value : BitVec 32) : Registers := fun i r =>
  if i = slot ∧ r = reg then value else regs i r

/-- `IOAPIC_REG_REDIR_TABLE_BASE`. -/
def redirTableBase : ℕ := 0x10

/-- `IOApic::redirect`, where `local_irq` has 16 bits. -/
def redirect (regs : Registers) (slot localIrq : ℕ) (reg : IoapicRedirectionReg) : Registers :=
  (regs.write slot (redirTableBase + localIrq % 2 ^ 16 * 2) (reg.raw.setWidth 32)).write slot
    (redirTableBase + localIrq % 2 ^ 16 * 2 + 1) ((reg.raw >>> 32).setWidth 32)

/-- `flags & APIC_INTERRUPT_ACTIVE_LOW`. -/
def activeLow (flags : UInt16) : Bool := flags &&& 0x2 ≠ 0

/-- `flags & APIC_INTERRUPT_LEVEL_TRIGGERED`. -/
def levelTriggered (flags : UInt16) : Bool := flags &&& 0x8 ≠ 0

/-- `final`, for a CPU with this LAPIC. -/
def redirection (lapic vector : UInt8) (enabled : Bool) (flags : UInt16) : IoapicRedirectionReg where
  vector := vector
  polarity := activeLow flags
  levelTrigeredReceived := levelTriggered flags
  isLevelSensitive := false
  mask := !enabled
  destination := lapic

/-- `_raw_redirect_interrupt`. -/
def rawRedirectInterrupt (ioapics : Slots) (lapic vector : UInt8) (enabled : Bool) (targetGsi : ℕ) (flags : UInt16)
    (regs : Registers) : Registers :=
  match queryFromIrq ioapics targetGsi with
  | none => regs
  | some slot =>
    match ioapics slot with
    | none => regs
    | some ioapic => redirect regs slot (targetGsi - ioapic.interruptBase) (redirection lapic vector enabled flags)

/-- `redirect_interrupt`. -/
def redirectInterrupt (ioapics : Slots) (iso : List MadtEntryIso) (lapic : UInt8) (irq : ℕ) (vector : UInt8)
    (enabled : Bool) (regs : Registers) : Registers :=
  match iso.find? fun entry => entry.irqSource.toNat = irq with
  | some entry =>
    rawRedirectInterrupt ioapics lapic vector enabled entry.globalSystemInterrupt.toNat entry.flags regs
  | none => rawRedirectInterrupt ioapics lapic vector enabled irq 0 regs

/-- What `apic_initialize` finds in a MADT. -/
structure Firmware where
  ioapics : List IOApic
  isos : List MadtEntryIso

namespace Firmware

variable (fw : Firmware)

def slots : Slots := loadIOApics 0 fw.ioapics fun _ => none

def iso : List MadtEntryIso := fw.isos.foldl updateInterruptSourceOverride []

/-- The legacy loop, for the interrupts below `n`. -/
def legacyLoop (lapic : UInt8) (n : ℕ) (regs : Registers) : Registers :=
  (List.range n).foldl
    (fun regs irq => redirectInterrupt fw.slots fw.iso lapic irq (UInt8.ofNat (irq + 32)) true regs) regs

/-- The registers after `apic_initialize`. -/
def afterLoop (lapic : UInt8) (regs : Registers) : Registers := fw.legacyLoop lapic 32 regs

/-- Where an interrupt is routed to, and with which flags. -/
def route (irq : ℕ) : ℕ × UInt16 :=
  match fw.isos.find? fun entry => entry.irqSource.toNat = irq with
  | some entry => (entry.globalSystemInterrupt.toNat, entry.flags)
  | none => (irq, 0)

/-- The last of the interrupts below `n` that is routed to `g`. -/
def lastRouted (n g : ℕ) : Option ℕ := (List.range n).reverse.find? fun irq => (fw.route irq).1 = g

/-- What a redirection register is given for an interrupt. -/
def redirectionOf (lapic : UInt8) (irq : ℕ) : IoapicRedirectionReg :=
  redirection lapic (UInt8.ofNat (irq + 32)) true (fw.route irq).2

/-- Fewer overrides than there is room for, with distinct sources and targets; and IOAPICs with distinct
ids and disjoint ranges. -/
structure WellFormed : Prop where
  room : fw.isos.length < 255
  sources : (fw.isos.map MadtEntryIso.irqSource).Nodup
  targets : (fw.isos.map MadtEntryIso.globalSystemInterrupt).Nodup
  ids : (fw.ioapics.map fun a => a.entry.ioapicId).Nodup
  disjoint : ∀ a ∈ fw.ioapics, ∀ b ∈ fw.ioapics, ∀ g, a.Covers g → b.Covers g → a = b

end Firmware

/-- The redirection entry of an interrupt that the IOAPIC covers. -/
def entry (regs : Registers) (a : IOApic) (g : ℕ) : BitVec 64 :=
  regs a.slot (redirTableBase + (g - a.interruptBase) * 2 + 1) ++ regs a.slot (redirTableBase + (g - a.interruptBase) * 2)

/-- The bits of an entry for the vector. -/
def vectorOf (e : BitVec 64) : BitVec 8 := e.setWidth 8

/-- The entry has the vector of the source, and polarity and trigger mode as the flags ask for. -/
def RoutedTo (iso : MadtEntryIso) (e : BitVec 64) : Prop :=
  vectorOf e = BitVec.ofNat 8 (iso.irqSource.toNat + 32) ∧ e.getLsbD 13 = activeLow iso.flags ∧
    e.getLsbD 15 = levelTriggered iso.flags

/-- Legacy interrupts are routed as the firmware says. -/
structure Routed (fw : Firmware) (lapic : UInt8) (regs : Registers) : Prop where
  overrides : ∀ iso ∈ fw.isos, iso.irqSource.toNat < 32 → ∀ a ∈ fw.ioapics, a.Covers iso.globalSystemInterrupt.toNat →
    RoutedTo iso (entry (fw.afterLoop lapic regs) a iso.globalSystemInterrupt.toNat)
  others : ∀ irq < 32, (∀ iso ∈ fw.isos, iso.irqSource.toNat ≠ irq ∧ iso.globalSystemInterrupt.toNat ≠ irq) →
    ∀ a ∈ fw.ioapics, a.Covers irq → vectorOf (entry (fw.afterLoop lapic regs) a irq) = BitVec.ofNat 8 (irq + 32)
  found : ∀ a ∈ fw.ioapics, ∀ g, a.Covers g → queryFromIrq fw.slots g = some a.slot

variable {fw : Firmware} {a b : IOApic} {g n i : ℕ} {lapic : UInt8} {regs : Registers}

/-! ### Loading -/

theorem IOApic.slot_lt (a : IOApic) : a.slot < maxIoapic := a.entry.ioapicId.toNat_lt

theorem loadIOApics_eq (as : List IOApic) (count : ℕ) (ioapics : Slots) (hcount : count + as.length ≤ maxIoapic)
    (hids : (as.map IOApic.slot).Nodup) (a : IOApic) (i : ℕ) :
    loadIOApics count as ioapics i = some a ↔ a ∈ as ∧ a.slot = i ∨ (∀ b ∈ as, b.slot ≠ i) ∧ ioapics i = some a := by
  induction as generalizing count ioapics with
  | nil => simp [loadIOApics]
  | cons c as ih =>
    rw [List.length_cons] at hcount
    obtain ⟨hc, hids⟩ := List.nodup_cons.mp hids
    have hload : loadIOApic count c ioapics = fun i => if i = c.slot then some c else ioapics i :=
      if_neg (by omega)
    rw [loadIOApics, ih (count + 1) _ (by omega) hids, hload]
    dsimp only
    by_cases hi : i = c.slot
    · subst hi
      have hno : ∀ b ∈ as, b.slot ≠ c.slot := fun b hb heq => hc (heq ▸ List.mem_map_of_mem hb)
      have hleft : ¬(a ∈ as ∧ a.slot = c.slot) := fun h => hno a h.1 h.2
      rw [if_pos rfl, or_iff_right hleft, and_iff_right hno, Option.some.injEq]
      constructor
      · rintro rfl
        exact .inl ⟨List.mem_cons_self, rfl⟩
      · rintro (⟨hmem, hslot⟩ | ⟨hall, -⟩)
        · rcases List.mem_cons.mp hmem with rfl | hmem
          · rfl
          · exact absurd hslot (hno a hmem)
        · exact absurd rfl (hall c List.mem_cons_self)
    · rw [if_neg hi]
      have hmem : a ∈ c :: as ∧ a.slot = i ↔ a ∈ as ∧ a.slot = i := by
        refine and_congr_left fun hslot => List.mem_cons.trans (or_iff_right ?_)
        rintro rfl
        exact hi hslot.symm
      rw [hmem, List.forall_mem_cons, and_iff_right (Ne.symm hi)]

theorem updateInterruptSourceOverride_foldl (isos iso : List MadtEntryIso) (h : iso.length + isos.length < maxIso) :
    isos.foldl updateInterruptSourceOverride iso = iso ++ isos := by
  induction isos generalizing iso with
  | nil => exact (List.append_nil iso).symm
  | cons e isos ih =>
    rw [List.length_cons] at h
    have hroom : updateInterruptSourceOverride iso e = iso ++ [e] := if_neg (by omega)
    rw [List.foldl_cons, hroom, ih _ (by rw [List.length_append, List.length_singleton]; omega), List.append_assoc]
    rfl

namespace Firmware

theorem iso_eq (hfw : fw.WellFormed) : fw.iso = fw.isos := by
  have hroom := hfw.room
  exact updateInterruptSourceOverride_foldl fw.isos [] (by rw [List.length_nil]; unfold maxIso; omega)

theorem slots_eq_some_iff (hfw : fw.WellFormed) : fw.slots i = some a ↔ a ∈ fw.ioapics ∧ a.slot = i := by
  have hids : (fw.ioapics.map IOApic.slot).Nodup := by
    have hinj : Function.Injective UInt8.toNat := fun _ _ h => UInt8.toNat_inj.mp h
    have hmap := hfw.ids.map hinj
    rwa [List.map_map] at hmap
  have hcount : fw.ioapics.length ≤ maxIoapic := by
    have hsub : fw.ioapics.map IOApic.slot ⊆ List.range maxIoapic := fun k hk => by
      obtain ⟨b, -, rfl⟩ := List.mem_map.mp hk
      exact List.mem_range.mpr b.slot_lt
    simpa using (List.subperm_of_subset hids hsub).length_le
  rw [slots, loadIOApics_eq fw.ioapics 0 _ (by omega) hids]
  simp

theorem slots_slot (hfw : fw.WellFormed) (ha : a ∈ fw.ioapics) : fw.slots a.slot = some a :=
  (slots_eq_some_iff hfw).mpr ⟨ha, rfl⟩

/-! ### Finding an IOAPIC -/

/-- The test of `query_from_irq`, at one slot. -/
theorem any_slots_iff (hfw : fw.WellFormed) :
    ((fw.slots i).any fun a => a.interruptBase ≤ g && g < a.interruptBase + a.maxRedirect) = true ↔
      ∃ b ∈ fw.ioapics, b.slot = i ∧ b.interruptBase ≤ g ∧ g < b.last := by
  cases hslot : fw.slots i with
  | none =>
    refine iff_of_false (by simp) ?_
    rintro ⟨b, hb, rfl, -⟩
    rw [slots_slot hfw hb] at hslot
    cases hslot
  | some b =>
    obtain ⟨hb, rfl⟩ := (slots_eq_some_iff hfw).mp hslot
    simp only [Option.any_some, Bool.and_eq_true, decide_eq_true_eq]
    constructor
    · exact fun h => ⟨b, hb, rfl, h⟩
    · rintro ⟨c, hc, hslots, h⟩
      have hsame := slots_slot hfw hc
      rw [hslots, hslot] at hsame
      cases hsame
      exact h

/-- **What `query_from_irq` finds**: everything but the last interrupt of each IOAPIC. -/
theorem query_eq (hfw : fw.WellFormed) (ha : a ∈ fw.ioapics) (hg : a.Covers g) :
    queryFromIrq fw.slots g = if g = a.last then none else some a.slot := by
  have honly : ∀ b ∈ fw.ioapics, b.interruptBase ≤ g → g < b.last → b = a := fun b hb hbase hlast =>
    hfw.disjoint b hb a ha g ⟨hbase, Nat.le_of_lt hlast⟩ hg
  by_cases hlast : g = a.last
  · rw [if_pos hlast, queryFromIrq, List.find?_eq_none]
    intro i _ hany
    obtain ⟨b, hb, -, hbase, hlt⟩ := (any_slots_iff hfw).mp hany
    rw [honly b hb hbase hlt, hlast] at hlt
    exact Nat.lt_irrefl _ hlt
  · rw [if_neg hlast, queryFromIrq, List.find?_range_eq_some]
    refine ⟨(any_slots_iff hfw).mpr ⟨a, ha, rfl, hg.1, Nat.lt_of_le_of_ne hg.2 hlast⟩, List.mem_range.mpr a.slot_lt,
      fun j hj => ?_⟩
    rw [Bool.not_eq_true', Bool.eq_false_iff]
    intro hany
    obtain ⟨b, hb, rfl, hbase, hlt⟩ := (any_slots_iff hfw).mp hany
    rw [honly b hb hbase hlt] at hj
    exact Nat.lt_irrefl _ hj

theorem query_some (hfw : fw.WellFormed) (h : queryFromIrq fw.slots g = some i) :
    ∃ b ∈ fw.ioapics, b.slot = i ∧ b.interruptBase ≤ g ∧ g < b.last := by
  unfold queryFromIrq at h
  have htest := List.find?_some h
  exact (any_slots_iff hfw).mp htest

end Firmware

/-! ### Routing -/

theorem IOApic.maxRedirect_lt (a : IOApic) : a.maxRedirect < 2 ^ 16 := by
  rw [IOApic.maxRedirect, BitVec.toNat_ushiftRight, Nat.shiftRight_eq_div_pow]
  have := (a.version &&& 0x00FF0000).isLt
  omega

theorem raw_halves (raw : BitVec 64) : (raw >>> 32).setWidth 32 ++ raw.setWidth 32 = raw := by
  apply BitVec.eq_of_getLsbD_eq
  intro i hi
  simp only [BitVec.getLsbD_append, BitVec.getLsbD_setWidth, BitVec.getLsbD_ushiftRight]
  split
  · next h => simp [h]
  · next h =>
    have : i - 32 < 32 := by omega
    simp [this, Nat.add_sub_cancel' (Nat.not_lt.mp h)]

/-- A redirection changes one entry of one IOAPIC. -/
theorem entry_redirect (regs : Registers) (slot localIrq : ℕ) (reg : IoapicRedirectionReg) (hlocal : localIrq < 2 ^ 16)
    (a : IOApic) (g : ℕ) : entry (redirect regs slot localIrq reg) a g =
      if slot = a.slot ∧ localIrq = g - a.interruptBase then reg.raw else entry regs a g := by
  unfold entry redirect Registers.write
  rw [Nat.mod_eq_of_lt hlocal]
  by_cases h : slot = a.slot ∧ localIrq = g - a.interruptBase
  · obtain ⟨rfl, rfl⟩ := h
    rw [if_pos ⟨rfl, rfl⟩, if_neg (by omega), if_pos ⟨rfl, rfl⟩, if_pos ⟨rfl, rfl⟩]
    exact raw_halves reg.raw
  · rw [if_neg h, if_neg (fun hc => h ⟨hc.1.symm, by omega⟩), if_neg (by omega), if_neg (by omega),
      if_neg (fun hc => h ⟨hc.1.symm, by omega⟩)]

namespace Firmware

theorem entry_rawRedirectInterrupt (hfw : fw.WellFormed) (ha : a ∈ fw.ioapics) (hg : a.Covers g)
    (vector : UInt8) (enabled : Bool) (t : ℕ) (flags : UInt16) (regs : Registers) :
    entry (rawRedirectInterrupt fw.slots lapic vector enabled t flags regs) a g =
      if t = g ∧ g ≠ a.last then (redirection lapic vector enabled flags).raw else entry regs a g := by
  unfold rawRedirectInterrupt
  cases hquery : queryFromIrq fw.slots t with
  | none =>
    rw [if_neg]
    rintro ⟨rfl, hlast⟩
    rw [query_eq hfw ha hg, if_neg hlast] at hquery
    cases hquery
  | some slot =>
    obtain ⟨b, hb, rfl, hbase, hlt⟩ := query_some hfw hquery
    have hmax := b.maxRedirect_lt
    unfold IOApic.last at hlt
    dsimp only
    rw [slots_slot hfw hb]
    dsimp only
    rw [entry_redirect _ _ _ _ (by omega)]
    by_cases hslot : b.slot = a.slot
    · have hsame : b = a := by
        have := slots_slot hfw hb
        rw [hslot, slots_slot hfw ha] at this
        exact (Option.some.inj this).symm
      subst hsame
      have hiff : t - b.interruptBase = g - b.interruptBase ↔ t = g ∧ g ≠ b.last := by
        have hcovers := hg.1
        unfold IOApic.last
        omega
      simp only [true_and, hiff]
    · rw [if_neg (fun h => hslot h.1), if_neg]
      rintro ⟨rfl, -⟩
      have hcovers : b.Covers t := ⟨hbase, by unfold IOApic.last; omega⟩
      exact hslot (congrArg IOApic.slot (hfw.disjoint b hb a ha t hcovers hg))

theorem redirectInterrupt_eq (hfw : fw.WellFormed) (irq : ℕ) (vector : UInt8) (regs : Registers) :
    redirectInterrupt fw.slots fw.iso lapic irq vector true regs =
      rawRedirectInterrupt fw.slots lapic vector true (fw.route irq).1 (fw.route irq).2 regs := by
  rw [redirectInterrupt, iso_eq hfw, route]
  cases fw.isos.find? fun entry => entry.irqSource.toNat = irq <;> rfl

/-- **What the loop leaves in an entry**: what the last interrupt that is routed there makes of it, if it is
found. -/
theorem legacyLoop_entry (hfw : fw.WellFormed) (ha : a ∈ fw.ioapics) (hg : a.Covers g) (n : ℕ) :
    entry (fw.legacyLoop lapic n regs) a g =
      if g = a.last then entry regs a g
      else ((fw.lastRouted n g).map fun irq => (fw.redirectionOf lapic irq).raw).getD (entry regs a g) := by
  induction n with
  | zero => simp [legacyLoop, lastRouted]
  | succ n ih =>
    rw [legacyLoop, List.range_succ, List.foldl_append]
    change entry (redirectInterrupt fw.slots fw.iso lapic n (UInt8.ofNat (n + 32)) true (fw.legacyLoop lapic n regs)) a g = _
    rw [redirectInterrupt_eq hfw, entry_rawRedirectInterrupt hfw ha hg, ih, lastRouted, lastRouted, List.range_succ,
      List.reverse_append, List.reverse_singleton, List.singleton_append, List.find?_cons]
    by_cases hlast : g = a.last
    · simp [hlast]
    · by_cases hroute : (fw.route n).1 = g
      · simp [hlast, hroute, redirectionOf]
      · simp [hlast, hroute]

theorem lastRouted_eq_some_iff : fw.lastRouted n g = some i ↔
    (fw.route i).1 = g ∧ i < n ∧ ∀ j < n, i < j → (fw.route j).1 ≠ g := by
  induction n with
  | zero => simp [lastRouted]
  | succ n ih =>
    rw [lastRouted, List.range_succ, List.reverse_append, List.reverse_singleton, List.singleton_append,
      List.find?_cons]
    by_cases hroute : (fw.route n).1 = g
    · simp only [hroute, decide_true, Option.some.injEq]
      constructor
      · rintro rfl
        exact ⟨hroute, Nat.lt_succ_self _, fun j hj hlt => by omega⟩
      · rintro ⟨-, hi, hlater⟩
        by_contra hne
        exact hlater n (Nat.lt_succ_self n) (by omega) hroute
    · simp only [hroute, decide_false]
      rw [← lastRouted, ih]
      constructor
      · rintro ⟨hi, hlt, hlater⟩
        refine ⟨hi, Nat.lt_succ_of_lt hlt, fun j hj hij => ?_⟩
        rcases Nat.lt_succ_iff_lt_or_eq.mp hj with hj | rfl
        · exact hlater j hj hij
        · exact hroute
      · rintro ⟨hi, hlt, hlater⟩
        refine ⟨hi, ?_, fun j hj => hlater j (Nat.lt_succ_of_lt hj)⟩
        rcases Nat.lt_succ_iff_lt_or_eq.mp hlt with hlt | rfl
        · exact hlt
        · exact absurd hi hroute

/-- The interrupt is the source of no override. -/
def NoSource (fw : Firmware) (irq : ℕ) : Prop := ∀ iso ∈ fw.isos, iso.irqSource.toNat ≠ irq

theorem route_of_noSource {irq : ℕ} (h : fw.NoSource irq) : fw.route irq = (irq, 0) := by
  have hnone : fw.isos.find? (fun entry => entry.irqSource.toNat = irq) = none := by
    rw [List.find?_eq_none]
    exact fun iso hiso => by simpa using h iso hiso
  rw [route, hnone]

/-- An override is found by its source. -/
theorem route_source (hfw : fw.WellFormed) {iso : MadtEntryIso} (hiso : iso ∈ fw.isos) :
    fw.route iso.irqSource.toNat = (iso.globalSystemInterrupt.toNat, iso.flags) := by
  rw [route]
  cases hfind : fw.isos.find? fun entry => entry.irqSource.toNat = iso.irqSource.toNat with
  | none =>
    have := List.find?_eq_none.mp hfind iso hiso
    simp at this
  | some e =>
    have hsource : e.irqSource = iso.irqSource := UInt8.toNat_inj.mp (by simpa using List.find?_some hfind)
    rw [List.inj_on_of_nodup_map hfw.sources (List.mem_of_find?_eq_some hfind) hiso hsource]

/-- What is routed to the target of an override: its source, and the target itself if it is no
source. -/
theorem route_eq_target_iff (hfw : fw.WellFormed) {iso : MadtEntryIso} (hiso : iso ∈ fw.isos) {irq : ℕ} :
    (fw.route irq).1 = iso.globalSystemInterrupt.toNat ↔
      irq = iso.irqSource.toNat ∨ irq = iso.globalSystemInterrupt.toNat ∧ fw.NoSource irq := by
  by_cases hno : fw.NoSource irq
  · rw [route_of_noSource hno, or_iff_right fun h => hno iso hiso h.symm, and_iff_left hno]
  · rw [or_iff_left fun h => hno h.2]
    unfold NoSource at hno
    push Not at hno
    obtain ⟨e, he, rfl⟩ := hno
    rw [route_source hfw he]
    constructor
    · intro htarget
      rw [List.inj_on_of_nodup_map hfw.targets he hiso (UInt32.toNat_inj.mp htarget)]
    · intro hsource
      rw [List.inj_on_of_nodup_map hfw.sources he hiso (UInt8.toNat_inj.mp hsource)]

end Firmware

theorem vectorOf_raw (reg : IoapicRedirectionReg) : vectorOf reg.raw = reg.vector.toBitVec := by
  apply BitVec.eq_of_getLsbD_eq
  intro i hi
  rw [vectorOf, BitVec.getLsbD_setWidth, IoapicRedirectionReg.raw, BitVec.getLsbD_append]
  simp [hi]

theorem polarity_raw (reg : IoapicRedirectionReg) : reg.raw.getLsbD 13 = reg.polarity := by
  simp only [IoapicRedirectionReg.raw, BitVec.getLsbD_append]
  simp

theorem levelSensitive_raw (reg : IoapicRedirectionReg) : reg.raw.getLsbD 15 = reg.isLevelSensitive := by
  simp only [IoapicRedirectionReg.raw, BitVec.getLsbD_append]
  simp

/-! ### The routes -/

namespace Firmware

/-- **When an override has its entry**, if its target is found: its interrupt is not level-triggered, and the
target is not routed to the same entry later. -/
theorem override_routed_iff (hfw : fw.WellFormed) {iso : MadtEntryIso} (hiso : iso ∈ fw.isos)
    (hs : iso.irqSource.toNat < 32) (ha : a ∈ fw.ioapics) (hg : a.Covers iso.globalSystemInterrupt.toNat)
    (hlast : iso.globalSystemInterrupt.toNat ≠ a.last) :
    RoutedTo iso (entry (fw.afterLoop lapic regs) a iso.globalSystemInterrupt.toNat) ↔
      levelTriggered iso.flags = false ∧
        ¬(iso.irqSource.toNat < iso.globalSystemInterrupt.toNat ∧ iso.globalSystemInterrupt.toNat < 32 ∧
          fw.NoSource iso.globalSystemInterrupt.toNat) := by
  generalize htarget : iso.globalSystemInterrupt.toNat = g at hg hlast ⊢
  have hroute : ∀ {irq}, (fw.route irq).1 = g ↔ irq = iso.irqSource.toNat ∨ irq = g ∧ fw.NoSource irq :=
    htarget ▸ route_eq_target_iff hfw hiso
  rw [afterLoop, legacyLoop_entry hfw ha hg, if_neg hlast]
  by_cases hlater : iso.irqSource.toNat < g ∧ g < 32 ∧ fw.NoSource g
  · -- the target is routed to its own entry
    have hrouted : fw.lastRouted 32 g = some g :=
      lastRouted_eq_some_iff.mpr ⟨hroute.mpr (.inr ⟨rfl, hlater.2.2⟩), hlater.2.1, fun j _ hj hc => by
        rcases hroute.mp hc with rfl | ⟨rfl, -⟩ <;> omega⟩
    refine iff_of_false ?_ fun h => h.2 hlater
    rintro ⟨hvector, -⟩
    rw [hrouted, Option.map_some, Option.getD_some, vectorOf_raw] at hvector
    have := congrArg BitVec.toNat hvector
    simp [redirectionOf, redirection] at this
    omega
  · have hrouted : fw.lastRouted 32 g = some iso.irqSource.toNat :=
      lastRouted_eq_some_iff.mpr ⟨hroute.mpr (.inl rfl), hs, fun j hj hsj hc => by
        rcases hroute.mp hc with rfl | ⟨rfl, hno⟩
        · omega
        · exact hlater ⟨hsj, hj, hno⟩⟩
    rw [hrouted, Option.map_some, Option.getD_some, and_iff_left hlater, RoutedTo, vectorOf_raw, polarity_raw,
      levelSensitive_raw, redirectionOf, route_source hfw hiso]
    have hvector : (UInt8.ofNat (iso.irqSource.toNat + 32)).toBitVec = BitVec.ofNat 8 (iso.irqSource.toNat + 32) := rfl
    exact ⟨fun h => h.2.2.symm, fun h => ⟨hvector, rfl, h.symm⟩⟩

/-- An interrupt that has nothing to do with an override is routed to its own entry, if it is found. -/
theorem other_routed (hfw : fw.WellFormed) {irq : ℕ} (hirq : irq < 32)
    (hno : ∀ iso ∈ fw.isos, iso.irqSource.toNat ≠ irq ∧ iso.globalSystemInterrupt.toNat ≠ irq)
    (ha : a ∈ fw.ioapics) (hg : a.Covers irq) (hlast : irq ≠ a.last) :
    vectorOf (entry (fw.afterLoop lapic regs) a irq) = BitVec.ofNat 8 (irq + 32) := by
  have hroute : fw.route irq = (irq, 0) := route_of_noSource fun iso hiso => (hno iso hiso).1
  have hrouted : fw.lastRouted 32 irq = some irq := by
    refine lastRouted_eq_some_iff.mpr ⟨by rw [hroute], hirq, fun j _ hj hc => ?_⟩
    by_cases hj' : fw.NoSource j
    · rw [route_of_noSource hj'] at hc
      exact Nat.ne_of_gt hj hc
    · unfold NoSource at hj'
      push Not at hj'
      obtain ⟨e, he, rfl⟩ := hj'
      rw [route_source hfw he] at hc
      exact (hno e he).2 hc
  rw [afterLoop, legacyLoop_entry hfw ha hg, if_neg hlast, hrouted, Option.map_some, Option.getD_some, vectorOf_raw]
  rfl

end Firmware

/-- Exactly what is routed as the firmware says: everything only where there is no IOAPIC, since the
last interrupt of each is not found, and keeps its entry; of the others each override that is not
level-triggered and whose target is not routed to the same entry later, and each interrupt that has
nothing to do with an override. -/
structure RoutesExactly (fw : Firmware) (lapic : UInt8) (regs : Registers) : Prop where
  everything : Routed fw lapic regs ↔ fw.ioapics = []
  found : ∀ a ∈ fw.ioapics, ∀ g, a.Covers g → (queryFromIrq fw.slots g = some a.slot ↔ g ≠ a.last)
  last : ∀ a ∈ fw.ioapics, entry (fw.afterLoop lapic regs) a a.last = entry regs a a.last
  overrides : ∀ iso ∈ fw.isos, iso.irqSource.toNat < 32 → ∀ a ∈ fw.ioapics, a.Covers iso.globalSystemInterrupt.toNat →
    iso.globalSystemInterrupt.toNat ≠ a.last →
    (RoutedTo iso (entry (fw.afterLoop lapic regs) a iso.globalSystemInterrupt.toNat) ↔
      levelTriggered iso.flags = false ∧
        ¬(iso.irqSource.toNat < iso.globalSystemInterrupt.toNat ∧ iso.globalSystemInterrupt.toNat < 32 ∧
          fw.NoSource iso.globalSystemInterrupt.toNat))
  others : ∀ irq < 32, (∀ iso ∈ fw.isos, iso.irqSource.toNat ≠ irq ∧ iso.globalSystemInterrupt.toNat ≠ irq) →
    ∀ a ∈ fw.ioapics, a.Covers irq → irq ≠ a.last →
    vectorOf (entry (fw.afterLoop lapic regs) a irq) = BitVec.ofNat 8 (irq + 32)

theorem IOApic.covers_last (a : IOApic) : a.Covers a.last := ⟨Nat.le_add_right _ _, Nat.le_refl _⟩

/-- **Which legacy interrupts are routed as the firmware says.** -/
theorem legacy_interrupts_routed_iff (hfw : fw.WellFormed) (lapic : UInt8) (regs : Registers) :
    RoutesExactly fw lapic regs := by
  constructor
  · constructor
    · intro h
      by_contra hne
      obtain ⟨a, ha⟩ := List.exists_mem_of_ne_nil _ hne
      have hfound := h.found a ha a.last a.covers_last
      rw [Firmware.query_eq hfw ha a.covers_last, if_pos rfl] at hfound
      cases hfound
    · intro hnone
      have hno : ∀ a, a ∉ fw.ioapics := fun a ha => List.not_mem_nil (hnone ▸ ha)
      exact ⟨fun _ _ _ a ha => absurd ha (hno a), fun _ _ _ a ha => absurd ha (hno a), fun a ha => absurd ha (hno a)⟩
  · intro a ha g hg
    rw [Firmware.query_eq hfw ha hg]
    by_cases hlast : g = a.last
    · simp [hlast]
    · simp [hlast]
  · intro a ha
    rw [Firmware.afterLoop, Firmware.legacyLoop_entry hfw ha a.covers_last, if_pos rfl]
  · exact fun iso hiso hs a ha hg hlast => Firmware.override_routed_iff hfw hiso hs ha hg hlast
  · exact fun irq hirq hno a ha hg hlast => Firmware.other_routed hfw hirq hno ha hg hlast

/-- An IOAPIC with 24 entries. -/
def pcApic : IOApic := ⟨⟨0, 0xFEC00000, 0⟩, 0x00170011⟩

/-- Overrides of the interrupts 0 (to 2) and 9 (level-triggered). -/
def pc : Firmware where
  ioapics := [pcApic]
  isos := [⟨0, 0, 2, 0⟩, ⟨0, 9, 9, 0xd⟩]

theorem pc_routes : RoutesExactly pc 0 fun _ _ => 0 :=
  legacy_interrupts_routed_iff
    ⟨by decide, by decide, by decide, by decide, fun a ha b hb _ _ _ => by
      rw [List.mem_singleton.mp ha, List.mem_singleton.mp hb]⟩ 0 _

/-- The entry 2 has the vector of the interrupt 2 in the end, and not that of 0; the entry 9 does not have its
trigger mode; and the interrupt 23 is not found. -/
theorem pc_not_routed :
    vectorOf (entry (pc.afterLoop 0 fun _ _ => 0) pcApic 2) = 34 ∧
    (entry (pc.afterLoop 0 fun _ _ => 0) pcApic 9).getLsbD 15 = false ∧
    queryFromIrq pc.slots 23 = none ∧ ¬Routed pc 0 fun _ _ => 0 := by
  have hfound : queryFromIrq pc.slots 23 = none := by decide +kernel
  refine ⟨by decide +kernel, by decide +kernel, hfound, fun h => ?_⟩
  have hlast := h.found pcApic (List.mem_singleton_self _) 23 ⟨by decide, by decide⟩
  rw [hfound] at hlast
  cases hlast

end IoApic
end WingOS
