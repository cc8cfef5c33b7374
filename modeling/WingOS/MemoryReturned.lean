/-
# What a memory gives back

`create_memory` takes the pages of a size rounded up, and `Asset::deref`
releases those of the size rounded down. So a memory that is made and
destroyed leaves the bitmaps as they were only if its size is a number of whole
pages (`returned_iff`); of any other size, its last page stays marked. While it
is alive, exactly the pages it needs are marked (`createMemory_ok`).

Key definitions: `Kernel.TakesAndReturns`.
Key theorems: `createMemory_ok`, `deref_last`, `returned_iff`.
-/
import WingOS.StaleMappings

namespace WingOS

open Lib (bitAt)

/-- The number of pages a size needs. -/
def pagesFor (size : ℕ) : ℕ := (size + 4095) / 4096

/-- All bitmaps of an allocator are as in another state of it. -/
def Pmm.SameBits (p p' : Pmm) : Prop :=
  ∀ w ∈ p.windows, ∀ j < w.pages, w.bit p'.mem j = w.bit p.mem j

namespace Kernel

variable {s s₁ : Kernel}

/-- **A memory takes what it needs and gives it back.** `s₁` is `s` after the
request: the pages of the asset are marked, and nothing else; and as soon as
the last reference is dropped, by which time other assets may have been made,
moved and released, the bitmaps are those of `s`. -/
structure TakesAndReturns (s : Kernel) (size : ℕ) (s₁ : Kernel) : Prop where
  marked : ∃ addr, s₁.heap s.nextPtr = some { refCount := 1, kind := .memory size addr true } ∧
    Allocated s.vm.pmm.windows s.vm.pmm.mem s₁.vm.pmm.mem addr (pagesFor size)
  returned : ∀ s₂ : Kernel, s₂.vm.pmm = s₁.vm.pmm → s₂.heap s.nextPtr = s₁.heap s.nextPtr →
    ∀ depth, ∃ s₃, s₂.deref (depth + 1) s.nextPtr = some s₃ ∧ s₃.heap s.nextPtr = none ∧
      s.vm.pmm.SameBits s₃.vm.pmm

/-- `from_bytes_ceil` is right when it is not 0. -/
theorem pagesCeil_eq {size : ℕ} (hsize : size < 2 ^ 64) (hpos : 0 < pagesCeil size) :
    pagesCeil size = pagesFor size := by
  unfold pagesCeil pagesFor at *
  by_cases hlt : size + 4096 - 1 < 2 ^ 64
  · rw [Nat.mod_eq_of_lt hlt]
    rfl
  · rw [Nat.mod_eq_sub_mod (by omega), Nat.mod_eq_of_lt (by omega)] at hpos
    omega

/-- **A request** that succeeds: the asset, with one reference, and its pages. -/
theorem createMemory_ok (hL : Layout s.vm.pmm.windows) {space : SpacePtr} {size handle : ℕ} {lower : Bool}
    (hsize : size < 2 ^ 64) (h : createMemory s space size 0 lower = some (.ok handle, s₁)) :
    ∃ addr, s₁.heap s.nextPtr = some { refCount := 1, kind := .memory size addr true } ∧
      s.vm.pmm.Same s₁.vm.pmm ∧ 0 < pagesFor size ∧
      Allocated s.vm.pmm.windows s.vm.pmm.mem s₁.vm.pmm.mem addr (pagesFor size) := by
  unfold createMemory at h
  by_cases hzero : size = 0
  · rw [if_pos hzero] at h
    cases h
  · rw [if_neg hzero, if_neg (fun hc => hc.1 rfl), if_pos rfl] at h
    split at h
    · obtain ⟨_, -, hc⟩ := Option.map_eq_some_iff.mp h
      cases hc
    · rename_i addr pmm halloc
      have halloc : s.vm.pmm.allocate (pagesCeil size) lower = (.ok addr, pmm) := halloc
      obtain rfl : _ = s₁ := congrArg Prod.snd (Option.some.inj h)
      have hpos := Pmm.allocate_pos halloc
      obtain ⟨hsame, hmarked⟩ := Pmm.allocate_ok hL halloc
      rw [pagesCeil_eq hsize hpos] at hmarked hpos
      exact ⟨addr, Function.update_self _ _ _, hsame, hpos, hmarked⟩

/-- **The last reference** to a memory that was allocated: as many pages as the
size has whole ones are released. -/
theorem deref_last (hL : Layout s.vm.pmm.windows) {a : AssetPtr} {size addr i : ℕ} {w : Window}
    (ha : s.heap a = some { refCount := 1, kind := .memory size addr true })
    (hw : w ∈ s.vm.pmm.windows) (hrun : Run w i addr (pagesFor size)) (hpos : 0 < pagesFor size)
    (hset : ∀ j, i ≤ j → j < i + pagesFor size → w.bit s.vm.pmm.mem j = true) (depth : ℕ) :
    ∃ s', s.deref (depth + 1) a = some s' ∧ s'.heap a = none ∧
      Pmm.ClearsRun w i (size / 4096) s.vm.pmm.mem s'.vm.pmm.mem := by
  have hfloor : size / 4096 ≤ pagesFor size := Nat.div_le_div_right (Nat.le_add_right size 4095)
  have hle := hrun.le_pages
  have hwhole : Run w i addr (size / 4096) := ⟨hrun.addr_eq, by omega⟩
  obtain ⟨pmm, hrelease, -, hclear⟩ := Pmm.release_ok hL hw hwhole (by omega)
    fun j hj hj' => hset j hj (by omega)
  refine ⟨(s.setPmm pmm).setAsset a none, ?_, Function.update_self _ _ _, hclear⟩
  rw [deref_memory ha, if_pos rfl, hrelease]
  rfl

/-- Marks that are set and then cleared, all of them or all but the last. -/
theorem bit_returned {w : Window} {i n k : ℕ} {m m₁ m₂ : Lib.Memory} (hset : SetsRun w i n m m₁)
    (hclear : Pmm.ClearsRun w i k m₁ m₂) (hfree : ∀ j, i ≤ j → j < i + n → w.bit m j = false)
    (hk : k ≤ n) (x : ℕ) :
    bitAt m₂ x = if 8 * w.data + i + k ≤ x ∧ x < 8 * w.data + i + n then true else bitAt m x := by
  rw [hclear x, hset x]
  by_cases hrun : 8 * w.data + i ≤ x ∧ x < 8 * w.data + i + n
  · have hbit : bitAt m x = false := by
      have hj := hfree (x - 8 * w.data) (by omega) (by omega)
      unfold Window.bit at hj
      rwa [show 8 * w.data + (x - 8 * w.data) = x by omega] at hj
    rw [if_pos hrun, hbit]
    by_cases hlast : 8 * w.data + i + k ≤ x
    · rw [if_neg (by omega), if_pos ⟨hlast, hrun.2⟩]
    · rw [if_pos (by omega), if_neg (by omega)]
  · rw [if_neg hrun, if_neg (by omega), if_neg (by omega)]

/-- **Exactly the sizes of whole pages** are given back. -/
theorem returned_iff (context : MachineContext) (m : Lib.Memory) (p₀ : Pmm)
    (hcreate : Pmm.create context m = .ok p₀) (hd : SectionsDisjoint context) (s s₁ : Kernel)
    (hs : p₀.Same s.vm.pmm) (space : SpacePtr) (size : UInt64) (lower : Bool) (handle : ℕ)
    (hcall : createMemory s space size.toNat 0 lower = some (.ok handle, s₁)) :
    TakesAndReturns s size.toNat s₁ ↔ size.toNat % 4096 = 0 := by
  have hL : Layout s.vm.pmm.windows := by
    rw [hs.1, (Pmm.created hcreate).windows]
    exact Pmm.layout_windowsOf hd _
  obtain ⟨addr, hheap, hsame, hpos, hmarked⟩ := createMemory_ok hL size.toNat_lt hcall
  obtain ⟨w, hw, i, hrun, hfree, hset⟩ := hmarked
  have hL₁ : Layout s₁.vm.pmm.windows := by rwa [hsame.1]
  have hle := hrun.le_pages
  have hbits : ∀ j, i ≤ j → j < i + pagesFor size.toNat → w.bit s₁.vm.pmm.mem j = true := by
    intro j hj hj'
    unfold Window.bit
    rw [hset, if_pos (by omega)]
  have hderef : ∀ s₂ : Kernel, s₂.vm.pmm = s₁.vm.pmm → s₂.heap s.nextPtr = s₁.heap s.nextPtr →
      ∀ depth, ∃ s₃, s₂.deref (depth + 1) s.nextPtr = some s₃ ∧ s₃.heap s.nextPtr = none ∧
        ∀ x, bitAt s₃.vm.pmm.mem x =
          if 8 * w.data + i + size.toNat / 4096 ≤ x ∧ x < 8 * w.data + i + pagesFor size.toNat then true
          else bitAt s.vm.pmm.mem x := by
    intro s₂ hpmm hasset depth
    obtain ⟨s₃, h₃, hnone, hclear⟩ := deref_last (s := s₂) (by rwa [hpmm]) (hasset.trans hheap)
      (by rwa [hpmm, hsame.1]) hrun hpos (by rwa [hpmm]) depth
    rw [hpmm] at hclear
    exact ⟨s₃, h₃, hnone, bit_returned hset hclear hfree (Nat.div_le_div_right (by omega))⟩
  constructor
  · intro h
    by_contra hpartial
    -- the page that is only partly used stays marked
    obtain ⟨s₃, h₃, -, hsame₃⟩ := h.returned s₁ rfl rfl 0
    obtain ⟨s₃', h₃', -, hall⟩ := hderef s₁ rfl rfl 0
    obtain rfl : s₃ = s₃' := Option.some.inj (h₃.symm.trans h₃')
    have hlast : size.toNat / 4096 < pagesFor size.toNat := by
      unfold pagesFor
      omega
    have hbit := hsame₃ w hw (i + size.toNat / 4096) (by omega)
    rw [hfree _ (by omega) (by omega)] at hbit
    unfold Window.bit at hbit
    rw [hall, if_pos (by omega)] at hbit
    cases hbit
  · intro hwhole
    have hpages : size.toNat / 4096 = pagesFor size.toNat := by
      unfold pagesFor
      omega
    refine ⟨⟨addr, hheap, w, hw, i, hrun, hfree, hset⟩, fun s₂ hpmm hasset depth => ?_⟩
    obtain ⟨s₃, h₃, hnone, hall⟩ := hderef s₂ hpmm hasset depth
    refine ⟨s₃, h₃, hnone, fun v _ j _ => ?_⟩
    unfold Window.bit
    rw [hall, hpages, if_neg (by omega)]

theorem same_oneSpace : Pmm.smallPmm.Same oneSpace.vm.pmm := by
  have hL : Layout Pmm.smallPmm.windows := by
    have hcreate : Pmm.create Pmm.smallMap (fun _ => 0) = .ok Pmm.smallPmm := rfl
    rw [(Pmm.created hcreate).windows]
    exact Pmm.layout_windowsOf ⟨by decide +kernel, by decide +kernel⟩ _
  have ha : Pmm.smallPmm.allocate 1 true = (_, oneSpace.vm.pmm) := rfl
  exact (Pmm.allocate_ok hL ha).1

/-- The kernel after a memory of `size` bytes is made. -/
def withMemory (size : ℕ) : Kernel := ((createMemory oneSpace 0 size 0 false).map Prod.snd).getD oneSpace

theorem createMemory_oneSpace (size : UInt64) (handle : ℕ)
    (h : (createMemory oneSpace 0 size.toNat 0 false).map (fun r => r.1.toOption) = some (some handle)) :
    createMemory oneSpace 0 size.toNat 0 false = some (.ok handle, withMemory size.toNat) := by
  unfold withMemory
  obtain ⟨⟨res, s⟩, hr, hres⟩ := Option.map_eq_some_iff.mp h
  rw [hr]
  cases res with
  | error e => cases hres
  | ok x =>
    cases hres
    rfl

/-- Two pages. -/
theorem returned_two_pages : TakesAndReturns oneSpace 8192 (withMemory 8192) :=
  (returned_iff Pmm.smallMap (fun _ => 0) Pmm.smallPmm rfl ⟨by decide +kernel, by decide +kernel⟩ oneSpace
    (withMemory 8192) same_oneSpace 0 8192 false 1
    (createMemory_oneSpace 8192 1 (by decide +kernel))).mpr rfl

/-- One byte: the page 9 of the section stays marked when the memory is gone. -/
theorem one_byte_leaks :
    createMemory oneSpace 0 1 0 false = some (.ok 1, withMemory 1) ∧
      ¬ TakesAndReturns oneSpace 1 (withMemory 1) := by
  refine ⟨createMemory_oneSpace 1 1 (by decide +kernel), fun h => ?_⟩
  have hpage : ∃ w ∈ oneSpace.vm.pmm.windows, 9 < w.pages ∧ w.bit oneSpace.vm.pmm.mem 9 = false ∧
      ((withMemory 1).deref 2 1).map (fun s => w.bit s.vm.pmm.mem 9) = some true := by decide +kernel
  obtain ⟨w, hw, hlt, hfree, hmarked⟩ := hpage
  obtain ⟨s₃, h₃, -, hsame⟩ := h.returned (withMemory 1) rfl rfl 1
  have h₃ : (withMemory 1).deref 2 1 = some s₃ := h₃
  rw [h₃, Option.map_some, Option.some_inj, hsame w hw 9 hlt, hfree] at hmarked
  cases hmarked

end Kernel
end WingOS
