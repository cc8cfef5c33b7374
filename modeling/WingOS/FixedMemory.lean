/-
# Memory at a fixed address

`Space::create_memory` with an address claims the range from the page allocator.
It gives `Pmm::own`, which counts pages, the size in bytes: a number becomes a
number of pages without a word. `own` marks that many bits and does not look at
the end of the section, so it marks the pages behind the range and goes on in
the bitmap that lies behind in memory.

The pages of the range are all marked in any case. So the claim is exact just if
the bits that are too many were set before (`fixed_claim_iff`).

Key definitions: `ClaimsExactly`, `Meets`, `SurplusMarked`.
Key theorems: `fixed_claim_iff`.
-/
import WingOS.StaleMappings

namespace WingOS

open Lib (Memory bitAt)

namespace Window

/-- The page `j` has a byte of the range. -/
def Meets (w : Window) (addr size j : ℕ) : Prop := w.page j < addr + size ∧ addr < w.page j + 4096

instance (w : Window) (addr size j : ℕ) : Decidable (w.Meets addr size j) :=
  inferInstanceAs (Decidable (_ ∧ _))

/-- The index of the page of an address. -/
def indexOf (w : Window) (addr : ℕ) : ℕ := (addr - w.range.start) / 4096

/-- The number of pages that have a byte of the range. -/
def pagesMet (addr size : ℕ) : ℕ := (addr % 4096 + size + 4095) / 4096

end Window

/-- The pages of `w` that have a byte of the range are marked besides those that
were, and no other bit has changed. -/
structure ClaimsExactly (ws : List Window) (w : Window) (addr size : ℕ) (m m' : Memory) : Prop where
  marked : ∀ j < w.pages, w.bit m' j = true ↔ w.bit m j = true ∨ w.Meets addr size j
  others : ∀ u ∈ ws, u ≠ w → ∀ j < u.pages, u.bit m' j = u.bit m j
  past : ∀ k, 8 * w.data + w.pages ≤ k → bitAt m' k = bitAt m k

/-- The bits from the end of the range on, as many as are counted too much, are
set. -/
def SurplusMarked (w : Window) (addr size : ℕ) (m : Memory) : Prop :=
  ∀ j, w.indexOf addr + Window.pagesMet addr size ≤ j → j < w.indexOf addr + size →
    bitAt m (8 * w.data + j) = true

/-- The first entry of the memory map around the range is FREE. -/
def FirstFree (context : MachineContext) (addr size : ℕ) : Prop :=
  ∃ e, (context.memoryMap.find? fun e =>
    decide (e.range.start ≤ addr ∧ (addr + size) % 2 ^ 64 ≤ e.range.stop)) = some e ∧ e.type = .free

section Claim

variable {ws : List Window} {w : Window} {addr size : ℕ} {m m' : Memory}

/-- The pages of the range are a run from the page of its start on. -/
theorem meets_iff (hal : w.range.start % 4096 = 0) (hstart : w.range.start ≤ addr) (j : ℕ) :
    w.Meets addr size j ↔ w.indexOf addr ≤ j ∧ j < w.indexOf addr + Window.pagesMet addr size := by
  unfold Window.Meets Window.page Window.indexOf Window.pagesMet
  omega

/-- There are no more of them than there are bytes. -/
theorem pagesMet_le (hsize : 1 ≤ size) : Window.pagesMet addr size ≤ size := by
  unfold Window.pagesMet
  omega

/-- All pages of the range are in the window. -/
theorem pagesMet_within (hL : Layout ws) (hw : w ∈ ws) (hal : w.range.start % 4096 = 0)
    (hstart : w.range.start ≤ addr) (hstop : addr + size ≤ w.range.stop) :
    w.indexOf addr + Window.pagesMet addr size ≤ w.pages := by
  have := hL.proper w hw
  unfold Window.indexOf Window.pagesMet Window.pages
  omega

/-- As many bits as there are bytes are set: exact if those behind the range were
set before. -/
theorem claimsExactly_iff (hL : Layout ws) (hw : w ∈ ws) (hal : w.range.start % 4096 = 0)
    (hstart : w.range.start ≤ addr) (hsize : 1 ≤ size) (hstop : addr + size ≤ w.range.stop)
    (hset : SetsRun w (w.indexOf addr) size m m') :
    ClaimsExactly ws w addr size m m' ↔ SurplusMarked w addr size m := by
  have hmet := pagesMet_within hL hw hal hstart hstop
  constructor
  · intro h j h1 h2
    have hnew : bitAt m' (8 * w.data + j) = true := by
      rw [hset, if_pos (by omega)]
    rcases Nat.lt_or_ge j w.pages with hj | hj
    · rcases (h.marked j hj).mp hnew with hold | hmeets
      · exact hold
      · have := ((meets_iff hal hstart j).mp hmeets).2
        omega
    · rw [← h.past _ (by omega)]
      exact hnew
  · intro h
    have hkept : ∀ k, 8 * w.data + w.indexOf addr + Window.pagesMet addr size ≤ k → bitAt m' k = bitAt m k := by
      intro k hk
      rw [hset]
      split
      · rename_i hin
        have := h (k - 8 * w.data) (by omega) (by omega)
        rw [Nat.add_sub_cancel' (by omega)] at this
        exact this.symm
      · rfl
    refine ⟨fun j hj => ?_, fun u hu hne j hj => ?_, fun k hk => hkept k (by omega)⟩
    · rw [meets_iff hal hstart]
      have hle : Window.pagesMet addr size ≤ size := pagesMet_le hsize
      unfold Window.bit
      by_cases hin : w.indexOf addr ≤ j ∧ j < w.indexOf addr + Window.pagesMet addr size
      · rw [hset, if_pos (by omega)]
        exact ⟨fun _ => .inr hin, fun _ => rfl⟩
      · by_cases hlow : j < w.indexOf addr
        · rw [hset, if_neg (by omega)]
          exact ⟨.inl, fun hc => hc.resolve_right hin⟩
        · rw [hkept _ (by omega)]
          exact ⟨.inl, fun hc => hc.resolve_right hin⟩
    · -- the bits of another window are before or behind those of this one
      unfold Window.bit
      by_cases hlow : 8 * u.data + j < 8 * w.data + w.indexOf addr
      · rw [hset, if_neg (by omega)]
      · refine hkept _ ?_
        have hapart := hL.packed.forall hu hw hne
        unfold Window.DataApart at hapart
        unfold Window.pages at hj hmet
        omega

/-- Nothing was marked. -/
theorem claimsExactly_refl_iff : ClaimsExactly ws w addr size m m ↔
    ∀ j < w.pages, w.Meets addr size j → w.bit m j = true :=
  ⟨fun h j hj hmeets => (h.marked j hj).mpr (.inr hmeets),
    fun h => ⟨fun j hj => ⟨.inl, fun hc => hc.elim id (h j hj)⟩, fun _ _ _ _ _ => rfl, fun _ _ => rfl⟩⟩

end Claim

/-! ### The call -/

namespace Kernel

variable {s s' : Kernel} {space : SpacePtr} {addr size handle : ℕ} {lower : Bool} {w : Window} {e : MemoryMap}

/-- What a call that succeeds does to the allocator. -/
theorem pmm_of_createFixed (haddr : addr ≠ 0)
    (hcall : s.createMemory space size addr lower = some (.ok handle, s')) :
    s'.vm.pmm = ownFixed s.context s.vm.pmm addr size := by
  unfold createMemory at hcall
  dsimp only at hcall
  split at hcall
  · cases hcall
  · split at hcall
    · cases hcall
    · simp only [Option.some_inj, Prod.mk.injEq] at hcall
      rw [← hcall.2]
      rfl

/-- **A claim of a fixed range** is exact just if it is made at all and the bits
behind the range, as many as the size has bytes more than pages, were set; or it
is not made, as another entry comes first, and all pages were marked. -/
theorem fixed_claim_iff (hd : SectionsDisjoint s.context)
    (hmade : ∃ m p, Pmm.create s.context m = .ok p ∧ p.Same s.vm.pmm) (haddr : addr ≠ 0) (hsize : 1 ≤ size)
    (he : e ∈ s.context.memoryMap) (hentry : e.range.start ≤ addr ∧ addr + size ≤ e.range.stop)
    (hw : w ∈ s.vm.pmm.windows) (hrange : w.range.start ≤ addr ∧ addr + size ≤ w.range.stop)
    (hcall : s.createMemory space size addr lower = some (.ok handle, s')) :
    ClaimsExactly s.vm.pmm.windows w addr size s.vm.pmm.mem s'.vm.pmm.mem ↔
      (FirstFree s.context addr size ∧ SurplusMarked w addr size s.vm.pmm.mem) ∨
      (¬ FirstFree s.context addr size ∧
        ∀ j < w.pages, w.Meets addr size j → w.bit s.vm.pmm.mem j = true) := by
  obtain ⟨m, p, hcreate, hsame⟩ := hmade
  have hwindows : s.vm.pmm.windows = Pmm.windowsOf _ s.context.memoryMap :=
    hsame.1.trans (Pmm.created hcreate).windows
  have hL : Layout s.vm.pmm.windows := by
    rw [hwindows]
    exact Pmm.layout_windowsOf hd _
  have hal : w.range.start % 4096 = 0 := by
    rw [hwindows] at hw
    exact Pmm.windowsOf_aligned hw
  have hlt := w.range.stop_lt
  -- some entry is around the range
  obtain ⟨e', hfind⟩ : ∃ e', (s.context.memoryMap.find? fun e =>
      decide (e.range.start ≤ addr ∧ (addr + size) % 2 ^ 64 ≤ e.range.stop)) = some e' := by
    refine Option.ne_none_iff_exists'.mp fun hnone => List.find?_eq_none.mp hnone e he ?_
    rw [decide_eq_true_eq, Nat.mod_eq_of_lt (by omega)]
    exact hentry
  rw [pmm_of_createFixed haddr hcall]
  unfold ownFixed
  rw [hfind]
  dsimp only
  by_cases hfree : e'.type = .free
  · have hfirst : FirstFree s.context addr size := ⟨e', hfind, hfree⟩
    have hno : (addr - w.range.start) / 4096 + size < 2 ^ 64 := by omega
    have hset := Pmm.own_sets hL hw ⟨hrange.1, by omega⟩ hno
    rw [if_pos hfree, claimsExactly_iff hL hw hal hrange.1 hsize hrange.2 hset]
    exact ⟨fun hs => .inl ⟨hfirst, hs⟩, fun hc => hc.elim And.right fun hno => absurd hfirst hno.1⟩
  · have hnot : ¬ FirstFree s.context addr size := by
      intro ⟨f, hf, htype⟩
      rw [hfind, Option.some_inj] at hf
      exact hfree (hf ▸ htype)
    rw [if_neg hfree, claimsExactly_refl_iff]
    exact ⟨fun hs => .inr ⟨hnot, hs⟩, fun hc => hc.elim (fun hyes => absurd hyes.1 hnot) And.right⟩

/-! ### A few bytes -/

theorem smallStart_lt : 0x100000 < 2 ^ 64 := by decide

theorem smallStop_lt : 0x110000 < 2 ^ 64 := by decide

/-- The allocator of the small machine has one section, with its bitmap behind
the array of the sections. -/
def smallWindow : Window := ⟨⟨0x100000, 0x110000, smallStart_lt, smallStop_lt⟩, 0x100028, 2⟩

/-- After 4 bytes of the last page but two are claimed. -/
def fourBytes : Kernel :=
  { oneSpace.allocateAsset 0 (.memory 4 0x10D000 false) with
    vm := { oneSpace.vm with pmm := ownFixed oneSpace.context oneSpace.vm.pmm 0x10D000 4 } }

theorem createMemory_fourBytes : oneSpace.createMemory 0 4 0x10D000 false = some (.ok 1, fourBytes) := rfl

theorem smallWindow_mem : smallWindow ∈ oneSpace.vm.pmm.windows := List.mem_singleton.mpr rfl

/-- The next page is marked too. -/
theorem fixed_claim_surplus : oneSpace.createMemory 0 4 0x10D000 false = some (.ok 1, fourBytes) ∧
    ¬ ClaimsExactly oneSpace.vm.pmm.windows smallWindow 0x10D000 4 oneSpace.vm.pmm.mem
      fourBytes.vm.pmm.mem := by
  refine ⟨createMemory_fourBytes, fun h => ?_⟩
  have hbefore : smallWindow.bit oneSpace.vm.pmm.mem 14 = false := by decide +kernel
  have hafter : smallWindow.bit fourBytes.vm.pmm.mem 14 = true := by decide +kernel
  rcases (h.marked 14 (by decide)).mp hafter with hold | hmeets
  · rw [hbefore] at hold
    cases hold
  · revert hmeets
    decide

theorem fixed_claim_iff_fourBytes : oneSpace.createMemory 0 4 0x10D000 false = some (.ok 1, fourBytes) ∧
    (ClaimsExactly oneSpace.vm.pmm.windows smallWindow 0x10D000 4 oneSpace.vm.pmm.mem
        fourBytes.vm.pmm.mem ↔
      (FirstFree oneSpace.context 0x10D000 4 ∧ SurplusMarked smallWindow 0x10D000 4 oneSpace.vm.pmm.mem) ∨
      (¬ FirstFree oneSpace.context 0x10D000 4 ∧
        ∀ j < smallWindow.pages, smallWindow.Meets 0x10D000 4 j →
          smallWindow.bit oneSpace.vm.pmm.mem j = true)) :=
  ⟨createMemory_fourBytes, fixed_claim_iff fresh_oneSpace.sections fresh_oneSpace.created (by decide)
    (by decide) (List.mem_singleton.mpr rfl) ⟨by decide, by decide⟩ smallWindow_mem ⟨by decide, by decide⟩
    createMemory_fourBytes⟩

end Kernel
end WingOS
