/-
# Stale mappings

Runs of the calls on memory. A mapping that is dropped leaves its entries in
the page tables, so the page of a memory that is dropped after it can be handed
out again while an old entry leads to it (`stale_mapping`).

A run keeps clear of that if no release drops the last reference to a mapping
of allocated memory (or to a space), and if the three other calls that can
break the tie between entries and marks are made with care (`CallOk`). Then no
page that an entry leads to is free (`no_stale_mapping`).

Key definitions: `Kernel.Inv`, `Droppable`, `CallOk`, `NoStale`.
Key theorems: `inv_deref`, `inv_assetRemove`, `inv_step`, `no_stale_mapping`.
-/
import WingOS.MappedPages

namespace WingOS

open PageRange

namespace Kernel

structure Inv (s : Kernel) : Prop where
  refs : Refs (fun _ => 0) s
  mem : Mem s.kernelVirtualBase s.vm s.kindAt

section Drop

variable {s s' : Kernel} {a : AssetPtr} {depth : ℕ}

/-! ### References that are dropped -/

theorem kindAt_of_heap {x : Asset} (hx : s.heap a = some x) : s.kindAt a = some x.kind :=
  kindAt_eq_some.mpr ⟨x.refCount, hx⟩

/-- A reference that is not the last: only a counter changes. -/
theorem deref_cases (h : Refs (one a) s) (hm : Mem s.kernelVirtualBase s.vm s.kindAt)
    (hs : s.deref (depth + 1) a = some s') : s'.Inv ∨ ∃ k, s.heap a = some ⟨1, k⟩ := by
  unfold deref at hs
  split at hs
  · rename_i hnone
    rw [Option.some_inj] at hs
    rw [← hs]
    refine .inl ⟨⟨h.live, fun b x hx => ?_, h.bound, h.memory⟩, hm⟩
    have hb : b ≠ a := by
      rintro rfl
      rw [hnone] at hx
      cases hx
    have := h.counted b x hx
    rwa [one_of_ne hb] at this
  · rename_i x hx
    split at hs
    · rename_i hzero
      obtain ⟨n, hn, -⟩ := h.counted a x hx
      rw [one_self] at hn
      omega
    · split at hs
      · rw [Option.some_inj] at hs
        rw [← hs]
        refine .inl ⟨refs_dec h hx, ?_⟩
        have hk : (some { x with refCount := x.refCount - 1 }).map Asset.kind = s.kindAt a :=
          (kindAt_of_heap hx).symm
        rw [kindAt_setAsset, hk, Function.update_eq_self]
        exact hm
      · rename_i hone
        exact .inr ⟨x.kind, by rw [hx, ← not_not.mp hone]⟩

theorem deref_memory {size addr : ℕ} {allocated : Bool}
    (hx : s.heap a = some ⟨1, .memory size addr allocated⟩) :
    s.deref (depth + 1) a =
      if allocated then
        (s.vm.pmm.release addr (size / 4096)).map fun (_, pmm) => (s.setPmm pmm).setAsset a none
      else some (s.setAsset a none) := by
  rw [deref, hx]
  rfl

theorem deref_mapping {start stop : ℕ} {physicalMem : AssetRef} {writable executable : Bool}
    (hx : s.heap a = some ⟨1, .mapping start stop physicalMem writable executable⟩) :
    s.deref (depth + 1) a =
      match physicalMem.asset with
      | none => some (s.setAsset a none)
      | some m => (s.setAsset a none).deref depth m := by
  rw [deref, hx]
  rfl

theorem mappedBy_of_entered {base : ℕ} {kinds : AssetPtr → Option AssetKind} {p m : AssetPtr}
    (h : enteredBy base kinds p = some m) : mappedBy kinds p = some m := by
  unfold enteredBy at h
  unfold mappedBy
  obtain ⟨k, hk, he⟩ := Option.bind_eq_some_iff.mp h
  rw [hk]
  unfold AssetKind.entered at he
  split at he
  · split at he
    · exact he
    · cases he
  · cases he

/-- A memory that loses a reference. -/
theorem inv_derefMemory (h : Refs (one a) s) (hm : Mem s.kernelVirtualBase s.vm s.kindAt)
    (hk : ∀ k, s.kindAt a = some k → k.isMemory = true) (hs : s.deref (depth + 1) a = some s') :
    s'.Inv := by
  rcases deref_cases h hm hs with hinv | ⟨k, hx⟩
  · exact hinv
  · have hun := h.unheld hx rfl
    have hkind := kindAt_of_heap hx
    dsimp only at hkind
    cases k with
    | mapping start stop r wr ex => cases hk _ hkind
    | space => cases hk _ hkind
    | memory size addr allocated =>
      have hrefs := refs_delete h hun
      have hnone : mappedBy s.kindAt a = none := by
        unfold mappedBy
        rw [hkind]
        rfl
      simp only [hnone, reduceCtorEq, if_false] at hrefs
      rw [deref_memory hx] at hs
      split at hs
      · rename_i hal
        subst hal
        obtain ⟨pmm, hrel, hmem⟩ := mem_deleteBlock hm hkind
          fun p hp => hun (.mapping p) (mappedBy_of_entered hp)
        rw [hrel, Option.map_some, Option.some_inj] at hs
        rw [← hs]
        refine ⟨hrefs.congr rfl rfl rfl, ?_⟩
        rw [kindAt_setAsset]
        exact hmem
      · rw [Option.some_inj] at hs
        rw [← hs]
        refine ⟨hrefs, ?_⟩
        rw [kindAt_setAsset]
        refine mem_delete hm fun m hm' => ?_
        rw [mappedBy_of_entered hm'] at hnone
        cases hnone

/-- A mapping that is deleted, where `Mem` holds without it. -/
theorem inv_derefMapping (h : Refs (one a) s) {start stop : ℕ} {physicalMem : AssetRef}
    {writable executable : Bool}
    (hx : s.heap a = some ⟨1, .mapping start stop physicalMem writable executable⟩)
    (hm : Mem s.kernelVirtualBase s.vm (Function.update s.kindAt a none))
    (hs : s.deref (depth + 2) a = some s') : s'.Inv := by
  have hmem : Mem (s.setAsset a none).kernelVirtualBase (s.setAsset a none).vm
      (s.setAsset a none).kindAt := by
    rw [kindAt_setAsset]
    exact hm
  have hmap : mappedBy s.kindAt a = physicalMem.asset := by
    unfold mappedBy
    rw [kindAt_of_heap hx]
    rfl
  rw [deref_mapping hx] at hs
  split at hs
  · rename_i hnone
    have hrefs := refs_delete h (h.unheld hx rfl)
    rw [hmap, hnone] at hrefs
    simp only [reduceCtorEq, if_false] at hrefs
    rw [Option.some_inj] at hs
    rw [← hs]
    exact ⟨hrefs, hmem⟩
  · rename_i m hsome
    refine inv_derefMemory (refs_dropMapping h hx hsome) hmem (fun k hk => ?_) hs
    obtain ⟨k', hk', hisMem⟩ := h.memory a m (hmap.trans hsome)
    rw [kindAt_setAsset] at hk
    rcases eq_or_ne m a with rfl | hne
    · simp at hk
    · rw [Function.update_of_ne hne, hk', Option.some_inj] at hk
      exact hk ▸ hisMem

/-- One reference to `a` can be dropped: if it is the last, then `a` is no space
and no mapping, below the kernel's base, of an allocated memory. -/
def Droppable (s : Kernel) (a : AssetPtr) : Prop :=
  ∀ k, s.heap a = some ⟨1, k⟩ →
    k ≠ .space ∧ ∀ m, k.entered s.kernelVirtualBase = some m → blockAt s.kindAt m = none

theorem inv_deref (h : Refs (one a) s) (hm : Mem s.kernelVirtualBase s.vm s.kindAt)
    (hdrop : s.Droppable a) (hs : s.deref (depth + 2) a = some s') : s'.Inv := by
  rcases deref_cases h hm hs with hinv | ⟨k, hx⟩
  · exact hinv
  · have hkind := kindAt_of_heap hx
    obtain ⟨hspace, hentered⟩ := hdrop k hx
    cases k with
    | space => exact absurd rfl hspace
    | memory size addr allocated =>
      refine inv_derefMemory h hm (fun k hk => ?_) hs
      rw [hkind, Option.some_inj] at hk
      rw [← hk]
      rfl
    | mapping start stop r wr ex =>
      refine inv_derefMapping h hx (mem_delete hm fun m hm' => hentered m ?_) hs
      unfold enteredBy at hm'
      rwa [hkind] at hm'

/-- What `_asset_remove` drops, and how. -/
theorem assetRemove_some (h : Refs (fun _ => 0) s) {space : SpacePtr} {k : ℕ}
    (hs : s.assetRemove space k = some s') :
    ∃ a depth, (s.tables space).assetAt k = some a ∧
      Refs (one a) (s.setTable space ((s.tables space).moveOut k)) ∧
      (s.setTable space ((s.tables space).moveOut k)).deref (depth + 2) a = some s' := by
  unfold assetRemove at hs
  split at hs
  · cases hs
  · rename_i r hr
    dsimp only at hs
    split at hs
    · rename_i hnone
      exact absurd hnone ((s.tables space).asset_ne hr)
    · rename_i a hsome
      have ha : (s.tables space).assetAt k = some a := AssetTable.assetAt_eq_some.mpr ⟨r, hr, hsome⟩
      -- there is an asset, so the depth is at least 2
      obtain ⟨depth, hdepth⟩ : ∃ depth, s.nextPtr = depth + 1 :=
        Nat.exists_eq_add_one_of_ne_zero
          (Nat.ne_zero_of_lt (h.bound a (h.live (.entry space k) a ha)))
      refine ⟨a, depth, ha, refs_moveOut h ha, ?_⟩
      have hnext : (s.setTable space ((s.tables space).moveOut k)).nextPtr = depth + 1 := hdepth
      rw [hnext] at hs
      exact hs

/-- The reference under the handle `k` of a space can be dropped. -/
def Drops (s : Kernel) (space : SpacePtr) (k : ℕ) : Prop :=
  ∀ a, (s.tables space).assetAt k = some a → s.Droppable a

theorem inv_assetRemove (h : s.Inv) {space : SpacePtr} {k : ℕ} (hdrop : s.Drops space k)
    (hs : s.assetRemove space k = some s') : s'.Inv := by
  obtain ⟨a, depth, ha, hrefs, hderef⟩ := assetRemove_some h.refs hs
  exact inv_deref hrefs h.mem (hdrop a ha) hderef

end Drop

/-! ### Memory -/

section Memory

variable {s s' : Kernel} {space : SpacePtr} {size addr : ℕ}

theorem kindAt_nextPtr {loc : AssetPtr → ℕ} (h : Refs loc s) : s.kindAt s.nextPtr = none :=
  kindAt_eq_none.mpr h.heap_nextPtr

/-- A new memory takes no reference. -/
theorem refs_allocateMemory (h : Refs (fun _ => 0) s) (allocated : Bool) :
    Refs (fun _ => 0) (s.allocateAsset space (.memory size addr allocated)) := by
  refine refs_allocate nofun ?_
  unfold AssetKind.memoryOf
  simpa using h

/-- A new asset that is dropped at once, after the page tables or the marks have
changed. -/
theorem assetRemove_new {kind : AssetKind} {vm : Vmm}
    (h : Refs (fun _ => 0) (s.allocateAsset space kind))
    (hs : { s.allocateAsset space kind with vm }.assetRemove space ((s.tables space).allocUid + 1) =
      some s') :
    ∃ (t : Kernel) (depth : ℕ), t.heap s.nextPtr = some ⟨1, kind⟩ ∧
      t.kindAt = Function.update s.kindAt s.nextPtr (some kind) ∧ t.vm = vm ∧
      t.kernelVirtualBase = s.kernelVirtualBase ∧ Refs (one s.nextPtr) t ∧
      t.deref (depth + 2) s.nextPtr = some s' ∧ t.root = s.root ∧
      ∀ k ≤ (s.tables space).allocUid, (t.tables space).assetAt k = (s.tables space).assetAt k := by
  have h' : Refs (fun _ => 0) { s.allocateAsset space kind with vm } := h.congr rfl rfl rfl
  obtain ⟨a, depth, hat, hrefs, hderef⟩ := assetRemove_some h' hs
  obtain rfl : s.nextPtr = a :=
    Option.some.inj ((assetAt_allocateAsset s space kind).symm.trans hat)
  refine ⟨_, depth, ?_, ?_, ?_, ?_, hrefs, hderef, rfl, fun k hk => ?_⟩
  · exact heap_allocateAsset s space kind
  · exact kindAt_allocateAsset s space kind
  · rfl
  · rfl
  · rw [assetAt_remove, if_neg (by omega)]
    show ((s.allocateAsset space kind).tables space).assetAt k = _
    rw [assetAt_allocate, if_neg (by omega)]

/-- The pages can be allocated; or none are given back when they can not. -/
def AllocOk (s : Kernel) (size : ℕ) : Prop :=
  (0 < pagesCeil size ∧ ∃ w ∈ s.vm.pmm.windows, ¬ NoFreeRun w s.vm.pmm.mem (pagesCeil size)) ∨
    size < 4096 ∨ ∀ w ∈ s.vm.pmm.windows, w.range.start ≠ 0

/-- A release of nothing. -/
theorem release_unchanged {p p' : Pmm} {count : ℕ} {res : Except String Unit}
    (h : count = 0 ∨ ∀ w ∈ p.windows, w.range.start ≠ 0) (hrel : p.release 0 count = some (res, p')) :
    p' = p := by
  unfold Pmm.release at hrel
  split at hrel
  · simp only [Option.some_inj, Prod.mk.injEq] at hrel
    exact hrel.2.symm
  · rename_i sec hsec
    rcases h with rfl | hstart
    · unfold Bitmap.fillExpectedInverse Range.fromBeginLen at hrel
      dsimp only at hrel
      rw [Nat.add_zero, Nat.sub_self] at hrel
      simp only [Bitmap.fillInverseBits, Option.some_inj, Prod.mk.injEq] at hrel
      exact hrel.2.symm
    · obtain ⟨hmem, hle, -⟩ := Pmm.sectionOf_mem hsec
      exact absurd (Nat.le_zero.mp hle) (hstart _ (List.mem_map_of_mem hmem))

/-- `create_memory` of pages that are allocated. -/
theorem inv_createAllocated (h : s.Inv) (hsize : size < 2 ^ 64) (hok : s.AllocOk size) {lower : Bool}
    {res : Except String ℕ} (hs : s.createMemory space size 0 lower = some (res, s')) : s'.Inv := by
  have hp := kindAt_nextPtr h.refs
  unfold createMemory at hs
  split at hs
  · simp only [Option.some_inj, Prod.mk.injEq] at hs
    exact hs.2 ▸ h
  · rw [if_neg (fun hne => hne.1 rfl)] at hs
    simp only [decide_true, if_true] at hs
    have hrefs : Refs (fun _ => 0) (s.allocateAsset space (.memory size 0 true)) :=
      refs_allocateMemory h.refs true
    split at hs
    · -- no memory: the asset is dropped, with the address 0
      rename_i e pmm ha
      obtain ⟨hsame, hmem, hfull⟩ := Pmm.allocate_error ha
      rw [Option.map_eq_some_iff] at hs
      obtain ⟨s1, hs1, heq⟩ := hs
      obtain ⟨t, depth, hheap, hkinds, hvm, hbase, hrefs', hderef, -⟩ := assetRemove_new hrefs hs1
      have hdelete := refs_delete hrefs' (hrefs'.unheld hheap rfl)
      rw [deref_memory hheap, if_pos rfl, Option.map_eq_some_iff] at hderef
      obtain ⟨⟨r, pmm'⟩, hrel, rfl⟩ := hderef
      rw [hvm] at hrel
      obtain rfl : pmm' = pmm := by
        refine release_unchanged ?_ hrel
        rcases hok with ⟨hpos, w, hw, hrun⟩ | hsmall | hstart
        · exact absurd (hfull hpos w hw) hrun
        · exact .inl (Nat.div_eq_of_lt hsmall)
        · refine .inr ?_
          rw [hsame.1]
          exact hstart
      simp only [Prod.mk.injEq] at heq
      rw [← heq.2]
      have hnone : mappedBy t.kindAt s.nextPtr = none := by
        unfold mappedBy
        rw [hkinds, Function.update_self]
        rfl
      simp only [hnone, reduceCtorEq, if_false] at hdelete
      refine ⟨hdelete.congr rfl rfl rfl, ?_⟩
      have hkind' : ((t.setPmm pmm').setAsset s.nextPtr none).kindAt = s.kindAt := by
        rw [kindAt_setAsset]
        change Function.update t.kindAt s.nextPtr none = _
        rw [hkinds, Function.update_idem, ← hp, Function.update_eq_self]
      have hvm' : ((t.setPmm pmm').setAsset s.nextPtr none).vm = { s.vm with pmm := pmm' } := by
        change { t.vm with pmm := pmm' } = _
        rw [hvm]
        rfl
      rw [hkind', hvm', show ((t.setPmm pmm').setAsset s.nextPtr none).kernelVirtualBase = _ from hbase]
      exact mem_grows h.mem ⟨hsame, fun k hk => hmem ▸ hk⟩
    · rename_i addr pmm ha
      simp only [Option.some_inj, Prod.mk.injEq] at hs
      rw [← hs.2]
      have hrefs' : Refs (fun _ => 0) ((s.allocateAsset space (.memory size 0 true)).setPmm pmm) :=
        hrefs.congr rfl rfl rfl
      have hheap : ((s.allocateAsset space (.memory size 0 true)).setPmm pmm).heap s.nextPtr =
          some ⟨1, .memory size 0 true⟩ := heap_allocateAsset s space _
      refine ⟨refs_setKind hrefs' hheap rfl rfl, ?_⟩
      rw [kindAt_setAsset]
      change Mem _ _ (Function.update (s.allocateAsset space _).kindAt _ _)
      rw [kindAt_allocateAsset, Function.update_idem]
      exact mem_addBlock h.mem hp hsize ha

/-- The first entry of the memory map around the range is FREE, so it is
claimed, and the page `x` is in the section that is marked. -/
def Claims (s : Kernel) (size addr x : ℕ) : Prop :=
  addr + size < 2 ^ 64 ∧
    (∃ e, (s.context.memoryMap.find? fun e =>
        decide (e.range.start ≤ addr ∧ (addr + size) % 2 ^ 64 ≤ e.range.stop)) = some e ∧
      e.type = .free) ∧
    ∃ w ∈ s.vm.pmm.windows, w.range.start ≤ addr ∧ addr < w.range.stop ∧ x < w.range.stop

/-- No page of the memory is in an allocated one, and each is not free, or is
claimed. -/
def FixedOk (s : Kernel) (size addr : ℕ) : Prop :=
  ∀ k, 4096 * k < size → (∀ a b, blockAt s.kindAt a = some b → ¬ Covers b (pageOf addr k)) ∧
    (s.vm.pmm.NotFree (pageOf addr k) ∨ s.Claims size addr (pageOf addr k))

theorem grows_ownFixed (context : MachineContext) (pmm : Pmm) (addr size : ℕ) :
    pmm.Grows (ownFixed context pmm addr size) := by
  unfold ownFixed
  split
  · split
    · exact Pmm.grows_own pmm addr size
    · exact Pmm.Grows.refl pmm
  · exact Pmm.Grows.refl pmm

/-- `own` gets the size in bytes, which is more than enough. -/
theorem notFree_ownFixed (hL : Layout s.vm.pmm.windows)
    (hal : ∀ w ∈ s.vm.pmm.windows, w.range.start % 4096 = 0) {k : ℕ} (hk : 4096 * k < size)
    (hc : s.Claims size addr (pageOf addr k)) :
    (ownFixed s.context s.vm.pmm addr size).NotFree (pageOf addr k) := by
  obtain ⟨hlt, ⟨e, he, htype⟩, w, hw, hstart, hstop, hx⟩ := hc
  have hwal := hal w hw
  have hsize : (addr - w.range.start) / 4096 + size < 2 ^ 64 := by omega
  have hset := Pmm.own_sets hL hw ⟨hstart, hstop⟩ hsize
  have hpage : pageOf addr k = w.page ((addr - w.range.start) / 4096 + k) := by
    unfold pageOf Window.page
    omega
  intro v hv j hj hvj
  have howned : ownFixed s.context s.vm.pmm addr size = (s.vm.pmm.own addr size).2 := by
    unfold ownFixed
    rw [he]
    exact if_pos htype
  rw [howned] at hv ⊢
  rw [(Pmm.own_same s.vm.pmm addr size).1] at hv
  have hvstop := hL.page_lt hv hj
  obtain rfl := hL.eq_of_mem_range hv hw (x := pageOf addr k)
    ⟨by rw [← hvj]; exact Nat.le_add_right _ _, by omega⟩
    ⟨by rw [hpage]; exact Nat.le_add_right _ _, hx⟩
  obtain rfl : j = (addr - v.range.start) / 4096 + k := by
    rw [hpage] at hvj
    unfold Window.page at hvj
    omega
  unfold Window.bit
  rw [hset, if_pos (by omega)]

/-- `create_memory` at a fixed address. -/
theorem inv_createFixed (h : s.Inv) (hsize : size < 2 ^ 64) (haddr : addr ≠ 0)
    (hok : (addr + size) % 2 ^ 64 ≤ s.kernelVirtualBase → s.FixedOk size addr) {lower : Bool}
    {res : Except String ℕ} (hs : s.createMemory space size addr lower = some (res, s')) : s'.Inv := by
  unfold createMemory at hs
  split at hs
  · simp only [Option.some_inj, Prod.mk.injEq] at hs
    exact hs.2 ▸ h
  · split at hs
    · simp only [Option.some_inj, Prod.mk.injEq] at hs
      exact hs.2 ▸ h
    · rename_i hbase
      have hfixed := hok (Nat.le_of_not_lt fun hlt => hbase ⟨haddr, hlt⟩)
      simp only [decide_eq_false haddr, Option.some_inj, Prod.mk.injEq] at hs
      rw [← hs.2]
      have hgrow := grows_ownFixed s.context s.vm.pmm addr size
      refine ⟨(refs_allocateMemory h.refs false).congr rfl rfl rfl, ?_⟩
      change Mem _ _ (s.allocateAsset space (.memory size addr false)).kindAt
      rw [kindAt_allocateAsset]
      refine mem_addFixed (mem_grows h.mem hgrow) (kindAt_nextPtr h.refs) hsize fun k hk => ?_
      obtain ⟨hblock, hfree | hclaim⟩ := hfixed k hk
      · exact ⟨hgrow.notFree hfree, hblock⟩
      · exact ⟨notFree_ownFixed h.mem.layout h.mem.aligned hk hclaim, hblock⟩

end Memory

/-! ### Mappings -/

section Mapping

variable {s s' : Kernel} {space : SpacePtr} {memory : AssetPtr} {size addr start stop : ℕ}
  {physicalMem : AssetRef} {writable executable : Bool}

/-- A new mapping takes the reference to its memory. -/
theorem refs_allocateMapping (h : Refs (fun _ => 0) s) (hasset : physicalMem.asset = some memory)
    {allocated : Bool} (hmem : s.kindAt memory = some (.memory size addr allocated)) :
    Refs (fun _ => 0) ((s.own memory).allocateAsset space
      (.mapping start stop physicalMem writable executable)) := by
  obtain ⟨n, hx⟩ := kindAt_eq_some.mp hmem
  have hown := refs_own h hx
  refine refs_allocate (fun m hm => ?_) ?_
  · obtain rfl : memory = m := Option.some.inj (hasset.symm.trans hm)
    refine ⟨.memory size addr allocated, ?_, rfl⟩
    unfold Kernel.own
    rw [kindAt_setAsset, hx, Function.update_self]
    rfl
  · have hone : (fun b => if physicalMem.asset = some b then 1 else 0) = one memory := by
      funext b
      unfold one
      simp only [hasset, Option.some_inj, eq_comm]
    unfold AssetKind.memoryOf
    dsimp only
    rw [hone]
    exact hown

theorem kindAt_own (s : Kernel) (a : AssetPtr) : (s.own a).kindAt = s.kindAt := by
  have hk : ((s.heap a).map fun x => { x with refCount := x.refCount + 1 }).map Asset.kind =
      s.kindAt a := by
    rw [Option.map_map]
    rfl
  unfold Kernel.own
  rw [kindAt_setAsset, hk, Function.update_eq_self]

/-- `create_mapping` of an allocated memory does not run out of frames half
way. -/
def FramesOk (s : Kernel) (space : SpacePtr) (start stop size addr : ℕ) (writable : Bool) : Prop :=
  let virt := Range.fromBeginLen start (stop - start)
  let phys := Range.fromBeginLen addr size
  start < s.kernelVirtualBase → virt.len = phys.len → virt.len % 4096 = 0 →
    (s.vm.map (s.root space) virt phys { writeable := writable, user := true }).1 = .ok ()

/-- So it fails only before it enters anything. -/
theorem vm_of_framesOk (hok : s.FramesOk space start stop size addr writable)
    (hlow : start < s.kernelVirtualBase) {e : String} {vm : Vmm}
    (hmap : s.vm.map (s.root space) (Range.fromBeginLen start (stop - start))
      (Range.fromBeginLen addr size) { writeable := writable, user := true } = (.error e, vm)) :
    vm = s.vm := by
  have hok' := hok hlow
  rw [hmap] at hok'
  unfold Vmm.map at hmap
  split at hmap
  · simp only [Prod.mk.injEq] at hmap
    exact hmap.2.symm
  · rename_i hlen
    split at hmap
    · simp only [Prod.mk.injEq] at hmap
      exact hmap.2.symm
    · rename_i hmod
      cases hok' (not_not.mp hlen) (not_not.mp hmod)

theorem inv_createMapping (h : s.Inv) (hasset : physicalMem.asset = some memory) {allocated : Bool}
    (hmem : s.kindAt memory = some (.memory size addr allocated))
    (hok : allocated = true → s.FramesOk space start stop size addr writable)
    {res : Except String ℕ}
    (hs : s.createMapping space start stop physicalMem memory size addr writable executable =
      some (res, s')) : s'.Inv := by
  have hp := kindAt_nextPtr h.refs
  have hrefs : Refs (fun _ => 0) ((s.own memory).allocateAsset space
      (.mapping start stop physicalMem writable executable)) :=
    refs_allocateMapping h.refs hasset hmem
  have hkinds : ((s.own memory).allocateAsset space
      (.mapping start stop physicalMem writable executable)).kindAt =
      Function.update s.kindAt s.nextPtr
        (some (.mapping start stop physicalMem writable executable)) := by
    rw [kindAt_allocateAsset, kindAt_own]
    rfl
  have hadd : Mem s.kernelVirtualBase s.vm (Function.update s.kindAt s.nextPtr
      (some (.mapping start stop physicalMem writable executable))) := mem_addMapping h.mem hp
  unfold createMapping at hs
  dsimp only at hs
  split at hs
  · simp only [Option.some_inj, Prod.mk.injEq] at hs
    rw [← hs.2]
    exact ⟨hrefs, by rw [hkinds]; exact hadd⟩
  · split at hs
    · simp only [Option.some_inj, Prod.mk.injEq] at hs
      rw [← hs.2]
      exact ⟨hrefs, by rw [hkinds]; exact hadd⟩
    · rename_i hbase
      have hlow : start < s.kernelVirtualBase := Nat.lt_of_not_le hbase
      have hne : memory ≠ s.nextPtr := by
        rintro rfl
        rw [hp] at hmem
        cases hmem
      have hentered : enteredBy s.kernelVirtualBase (Function.update s.kindAt s.nextPtr
          (some (.mapping start stop physicalMem writable executable))) s.nextPtr = some memory := by
        unfold enteredBy
        rw [Function.update_self]
        exact (if_pos hlow).trans hasset
      have hpages : ∀ k < (Range.fromBeginLen addr size).len / 4096,
          Guarded s.kernelVirtualBase s.vm.pmm (Function.update s.kindAt s.nextPtr
            (some (.mapping start stop physicalMem writable executable)))
            (pageOf (Range.fromBeginLen addr size).start k) := by
        intro k hk
        rw [Range.len_fromBeginLen (h.mem.size_lt _ _ _ _ hmem)] at hk
        have hpage : pageOf (Range.fromBeginLen addr size).start k = pageOf addr k := by
          unfold pageOf Range.fromBeginLen
          dsimp only
          omega
        rw [hpage]
        exact hadd.guarded_page ((Function.update_of_ne hne _ _).trans hmem) hentered hk
      split at hs
      · -- the asset is dropped; nothing was entered, or the memory is at a fixed address
        rename_i e vm hmap
        rw [Option.map_eq_some_iff] at hs
        obtain ⟨s1, hs1, heq⟩ := hs
        simp only [Prod.mk.injEq] at heq
        rw [← heq.2]
        obtain ⟨t, depth, hheap, htkinds, htvm, htbase, htrefs, hderef, -⟩ := assetRemove_new hrefs hs1
        refine inv_derefMapping htrefs hheap ?_ hderef
        rw [htkinds, htvm, htbase, kindAt_own]
        cases allocated with
        | false =>
          refine mem_delete (mem_map hadd hpages hmap) fun m hm => ?_
          obtain rfl : memory = m := Option.some.inj (hentered.symm.trans hm)
          rw [blockAt_update_of_ne hne]
          unfold blockAt
          rw [hmem]
          rfl
        | true =>
          rw [vm_of_framesOk (hok rfl) hlow hmap]
          change Mem _ s.vm (Function.update (Function.update s.kindAt s.nextPtr _) s.nextPtr none)
          rw [Function.update_idem, ← hp, Function.update_eq_self]
          exact h.mem
      · rename_i vm hmap
        simp only [Option.some_inj, Prod.mk.injEq] at hs
        rw [← hs.2]
        refine ⟨hrefs.congr rfl rfl rfl, ?_⟩
        change Mem _ _ (((s.own memory).allocateAsset space _).kindAt)
        rw [hkinds]
        exact mem_map hadd hpages hmap

end Mapping

/-! ### Calls -/

section Calls

variable {s s' : Kernel} {caller : SpacePtr}

theorem byHandle_ok {space : SpacePtr} {k : ℕ} {r : AssetRef} {a : AssetPtr} {x : Asset}
    (h : s.byHandle space k = .ok (r, a, x)) :
    (s.tables space).assets k = some r ∧ r.asset = some a ∧ s.heap a = some x := by
  unfold byHandle at h
  split at h
  · cases h
  · rename_i r' hr
    split at h
    · cases h
    · rename_i a' ha
      split at h
      · cases h
      · rename_i x' hx
        cases h
        exact ⟨AssetTable.byHandle_ok hr, ha, hx⟩

/-- What a call needs, so that no entry is left behind on pages that are
released. -/
def CallOk (s : Kernel) (op : SpacePtr × Syscall) : Prop :=
  match op.2 with
  | .memOwn target size addr =>
    ∀ space, s.targetSpace op.1 target.toNat = .ok space →
      if addr.toNat = 0 then s.AllocOk size.toNat
      else (addr.toNat + size.toNat) % 2 ^ 64 ≤ s.kernelVirtualBase →
        s.FixedOk size.toNat addr.toNat
  | .map target start stop physicalMem writable _ =>
    ∀ space, s.targetSpace op.1 target.toNat = .ok space → start.toNat < stop.toNat →
      ∀ r a n size addr, s.byHandle space physicalMem.toNat = .ok (r, a, ⟨n, .memory size addr true⟩) →
        s.FramesOk space start.toNat stop.toNat size addr writable
  | .assetRelease space asset start stop found =>
    if asset.toNat = invalidHandle ∧ start.toNat ≠ 0 then
      ∀ physicalMem, s.mappingAt op.1 found.toNat start.toNat stop.toNat = some physicalMem →
        s.Drops op.1 found.toNat ∧
        ∀ s1, s.assetRemove op.1 found.toNat = some s1 → s1.Drops op.1 physicalMem.handle
    else
      ∀ target, s.targetSpace op.1 space.toNat = .ok target → s.Drops target asset.toNat
  | .assetMove _ _ _ => True

theorem inv_memOwn (h : s.Inv) {target size addr : UInt64} {res : Except String ℕ}
    (hok : s.CallOk (caller, .memOwn target size addr))
    (hs : s.memOwn caller target.toNat size.toNat addr.toNat = some (res, s')) : s'.Inv := by
  unfold memOwn at hs
  split at hs
  · simp only [Option.some_inj, Prod.mk.injEq] at hs
    exact hs.2 ▸ h
  · rename_i space htarget
    have hok' := hok space htarget
    split at hok'
    · rename_i hzero
      rw [hzero] at hs
      exact inv_createAllocated h size.toNat_lt hok' hs
    · rename_i hne
      exact inv_createFixed h size.toNat_lt hne hok' hs

theorem inv_map (h : s.Inv) {target start stop physicalMem : UInt64} {writable executable : Bool}
    {res : Except String ℕ}
    (hok : s.CallOk (caller, .map target start stop physicalMem writable executable))
    (hs : s.map caller target.toNat start.toNat stop.toNat physicalMem.toNat writable executable =
      some (res, s')) : s'.Inv := by
  unfold map at hs
  split at hs
  · simp only [Option.some_inj, Prod.mk.injEq] at hs
    exact hs.2 ▸ h
  · rename_i space htarget
    split at hs
    · simp only [Option.some_inj, Prod.mk.injEq] at hs
      exact hs.2 ▸ h
    · rename_i hlt
      split at hs
      · simp only [Option.some_inj, Prod.mk.injEq] at hs
        exact hs.2 ▸ h
      · rename_i r a x hx
        obtain ⟨-, hasset, hheap⟩ := byHandle_ok hx
        split at hs
        · rename_i size addr allocated hkind
          have hmem : s.kindAt a = some (.memory size addr allocated) := by
            rw [kindAt_of_heap hheap, hkind]
          refine inv_createMapping h hasset hmem (fun hal => ?_) hs
          refine hok space htarget (Nat.lt_of_not_le hlt) r a x.refCount size addr ?_
          rw [hx, ← hal, ← hkind]
        · simp only [Option.some_inj, Prod.mk.injEq] at hs
          exact hs.2 ▸ h

theorem inv_assetRelease (h : s.Inv) {space asset start stop found : UInt64} {res : Except String ℕ}
    (hok : s.CallOk (caller, .assetRelease space asset start stop found))
    (hs : s.assetRelease caller space.toNat asset.toNat start.toNat stop.toNat found.toNat =
      some (res, s')) : s'.Inv := by
  unfold CallOk at hok
  dsimp only at hok
  unfold assetRelease at hs
  split at hs
  · rename_i hinvalid
    rw [if_pos hinvalid] at hok
    unfold memRelease at hs
    split at hs
    · simp only [Option.some_inj, Prod.mk.injEq] at hs
      exact hs.2 ▸ h
    · rename_i physicalMem hat
      obtain ⟨hfirst, hsecond⟩ := hok physicalMem hat
      split at hs
      · simp only [Option.some_inj, Prod.mk.injEq] at hs
        exact hs.2 ▸ h
      · rw [Option.bind_eq_some_iff] at hs
        obtain ⟨s1, h1, hs⟩ := hs
        rw [Option.map_eq_some_iff] at hs
        obtain ⟨s2, h2, heq⟩ := hs
        simp only [Prod.mk.injEq] at heq
        rw [← heq.2]
        exact inv_assetRemove (inv_assetRemove h hfirst h1) (hsecond s1 h1) h2
  · rename_i hinvalid
    rw [if_neg hinvalid] at hok
    split at hs
    · simp only [Option.some_inj, Prod.mk.injEq] at hs
      exact hs.2 ▸ h
    · rename_i target htarget
      split at hs
      · simp only [Option.some_inj, Prod.mk.injEq] at hs
        exact hs.2 ▸ h
      · rw [Option.map_eq_some_iff] at hs
        obtain ⟨s1, h1, heq⟩ := hs
        simp only [Prod.mk.injEq] at heq
        rw [← heq.2]
        exact inv_assetRemove h (hok target htarget) h1

/-- A reference that moves stays a reference. -/
theorem inv_assetMove (h : s.Inv) (caller : SpacePtr) (source target asset : ℕ) :
    (s.assetMove caller source target asset).2.Inv := by
  unfold assetMove
  split
  · exact h
  · rename_i src hsrc
    split
    · exact h
    · rename_i dst hdst
      split
      · exact h
      · rename_i r x hx
        split
        · exact h
        · rename_i moved tables hmove
          exact ⟨refs_move h.refs (byHandle_ok hx).1 hmove, h.mem⟩

/-- **Every call** that is made with care keeps the invariant. -/
theorem inv_step (h : s.Inv) {op : SpacePtr × Syscall} (hok : s.CallOk op)
    (hs : s.step op = some s') : s'.Inv := by
  obtain ⟨caller, call⟩ := op
  unfold step at hs
  rw [Option.map_eq_some_iff] at hs
  obtain ⟨⟨res, s1⟩, hcall, rfl⟩ := hs
  cases call with
  | memOwn target size addr => exact inv_memOwn h hok hcall
  | map target start stop physicalMem writable executable => exact inv_map h hok hcall
  | assetRelease space asset start stop found => exact inv_assetRelease h hok hcall
  | assetMove source target asset =>
    unfold call at hcall
    rw [Option.some_inj] at hcall
    have := inv_assetMove h caller source.toNat target.toNat asset.toNat
    rwa [hcall] at this

end Calls

/-! ### Runs -/

/-- Spaces that were just made: there are no other assets, and nothing has been
entered in a page table. What the tables hold otherwise does not matter. -/
structure Fresh (s : Kernel) : Prop where
  created : ∃ m p₀, Pmm.create s.context m = .ok p₀ ∧ p₀.Same s.vm.pmm
  sections : SectionsDisjoint s.context
  spaces : ∀ a x, s.heap a = some x → x.kind = .space
  refs : Refs (fun _ => 0) s
  written : s.vm.written = []

theorem inv_fresh {s : Kernel} (h : s.Fresh) : s.Inv := by
  obtain ⟨m, p₀, hcreate, hsame⟩ := h.created
  have hwindows : s.vm.pmm.windows = p₀.windows := hsame.1
  rw [(Pmm.created hcreate).windows] at hwindows
  have hspace : ∀ a size addr allocated, s.kindAt a ≠ some (.memory size addr allocated) := by
    intro a size addr al hk
    obtain ⟨n, hn⟩ := kindAt_eq_some.mp hk
    cases h.spaces a _ hn
  have hblock : ∀ a b, blockAt s.kindAt a ≠ some b := by
    intro a b hb
    obtain ⟨size, hk, -⟩ := blockAt_eq_some.mp hb
    exact hspace a _ _ _ hk
  refine ⟨h.refs, ?_, ?_, ?_, ?_, ?_, ?_, ?_⟩
  · rw [hwindows]
    exact Pmm.layout_windowsOf h.sections _
  · rw [hwindows]
    exact fun w hw => Pmm.windowsOf_aligned hw
  · exact fun a size addr al ha => absurd ha (hspace a size addr al)
  · exact fun a b hb => absurd hb (hblock a b)
  · exact fun a b a' b' hb => absurd hb (hblock a b)
  · exact fun a size addr ha => absurd ha (hspace a size addr false)
  · intro t ht
    rw [h.written] at ht
    cases ht

/-- No page that an entry of `create_mapping` leads to is free, and so none is
handed out. -/
def NoStale (s : Kernel) : Prop :=
  ∀ space vaddr t i, leafSlot s.vm.frames vaddr 4 (s.root space) = some (t, i) →
    (t, i) ∈ s.vm.written → (s.vm.frames t i).present = true → (s.vm.frames t i).user = true →
    s.vm.pmm.NotFree (4096 * (s.vm.frames t i).address) ∧
      ∀ count lower addr pmm, s.vm.pmm.allocate count lower = (.ok addr, pmm) →
        ¬ Covers (addr, count) (4096 * (s.vm.frames t i).address)

theorem Inv.noStale {s : Kernel} (h : s.Inv) : s.NoStale := by
  intro space vaddr t i _ hmem hpresent _
  have hfree := (h.mem.leaves (t, i) hmem hpresent).1
  refine ⟨hfree, fun count lower addr pmm ha hc => ?_⟩
  exact Pmm.free_allocated h.mem.layout h.mem.aligned ha hc (Nat.mul_mod_right _ _) hfree

/-- One space, with a top table of its own. -/
def oneSpace : Kernel where
  context := Pmm.smallMap
  kernelVirtualBase := 0xFFFF800000000000
  vm := { pmm := (Pmm.smallPmm.allocate 1 true).2, frames := fun _ _ => {} }
  root := fun _ => 0x108000
  tables := fun _ => AssetTable.empty 0
  heap := fun a => if a = 0 then some ⟨1, .space⟩ else none
  nextPtr := 1

theorem fresh_oneSpace : oneSpace.Fresh := by
  have hsections : SectionsDisjoint Pmm.smallMap := ⟨by decide +kernel, by decide +kernel⟩
  have hcreate : Pmm.create Pmm.smallMap (fun _ => 0) = .ok Pmm.smallPmm := rfl
  have hspace : ∀ a x, oneSpace.heap a = some x → a = 0 ∧ x = ⟨1, .space⟩ := by
    intro a x hx
    unfold oneSpace at hx
    dsimp only at hx
    split at hx
    · rename_i ha
      exact ⟨ha, (Option.some.inj hx).symm⟩
    · cases hx
  have hmapped : ∀ p a, mappedBy oneSpace.kindAt p ≠ some a := by
    intro p a hp
    obtain ⟨k, hk, ha⟩ := Option.bind_eq_some_iff.mp hp
    obtain ⟨n, hn⟩ := kindAt_eq_some.mp hk
    cases (hspace p _ hn).2
    cases ha
  have hholds : ∀ d a, oneSpace.holds d ≠ some a := by
    intro d a hd
    cases d with
    | entry space h => cases hd
    | mapping p => exact hmapped p a hd
  refine ⟨⟨_, _, hcreate, ?_⟩, hsections, fun a x hx => by rw [(hspace a x hx).2], ?_, rfl⟩
  · have hL : Layout Pmm.smallPmm.windows := by
      rw [(Pmm.created hcreate).windows]
      exact Pmm.layout_windowsOf hsections _
    have ha : Pmm.smallPmm.allocate 1 true = (_, oneSpace.vm.pmm) := rfl
    exact (Pmm.grows_allocate hL ha).1
  · refine ⟨fun d a hd => absurd hd (hholds d a), fun a x hx => ?_, fun a ha => ?_,
      fun p a hp => absurd hp (hmapped p a)⟩
    · rw [(hspace a x hx).2]
      refine ⟨1, rfl, fun L _ hL => ?_⟩
      cases L with
      | nil => exact Nat.zero_le 1
      | cons d L => exact absurd (hL d List.mem_cons_self) (hholds d a)
    · obtain ⟨x, hx⟩ := Option.ne_none_iff_exists'.mp ha
      rw [(hspace a x hx).1]
      exact Nat.one_pos

/-- A page is owned and mapped at 4 MiB. -/
def ownAndMap : List (SpacePtr × Syscall) :=
  [(0, .memOwn 0 4096 0), (0, .map 0 0x400000 0x401000 1 true false)]

/-- Then both assets are released, the mapping first. -/
def ownMapRelease : List (SpacePtr × Syscall) :=
  ownAndMap ++ [(0, .assetRelease 0 2 0 0 0), (0, .assetRelease 0 1 0 0 0)]

/-- The entry at 4 MiB, if there is one of `create_mapping`: present, user, the
page it leads to, and whether that is not free. -/
def entryAt4M (s : Kernel) : Option (Bool × Bool × ℕ × Bool) :=
  (leafSlot s.vm.frames 0x400000 4 (s.root 0)).bind fun (t, i) =>
    if (t, i) ∈ s.vm.written then
      let page := s.vm.frames t i
      some (page.present, page.user, page.address, decide (s.vm.pmm.NotFree (4096 * page.address)))
    else none

/-- What `entryAt4M` says about the entry. -/
theorem NoStale.entryAt4M {s : Kernel} (h : s.NoStale) {address : ℕ} {notFree : Bool}
    (hentry : s.entryAt4M = some (true, true, address, notFree)) : notFree = true := by
  unfold Kernel.entryAt4M at hentry
  obtain ⟨⟨t, i⟩, hslot, hentry⟩ := Option.bind_eq_some_iff.mp hentry
  dsimp only at hentry
  split at hentry
  · rename_i hmem
    simp only [Option.some_inj, Prod.mk.injEq] at hentry
    rw [← hentry.2.2.2]
    exact decide_eq_true (h 0 0x400000 t i hslot hmem hentry.1 hentry.2.1).1
  · cases hentry

/-- The kernel after the page is owned. -/
def oneSpaceOwned : Kernel := (oneSpace.step (0, .memOwn 0 4096 0)).getD oneSpace

end Kernel
end WingOS
