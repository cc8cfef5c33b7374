/-
# Mapped pages and their memory

The pages that user mappings lead to, against the marks of the page
allocator. What matters of an asset is its kind: a memory that was allocated
has a block of pages, which it gives back when it is deleted; a memory at a
fixed address has pages that were claimed with `own`, and never gives them
back; a mapping keeps its memory alive.

`Mem` is the invariant: a page that an entry of a page table leads to is not
free, and if it is in the block of a memory, then a mapping of that memory was
entered and is still there (`Guarded`). Growing marks, new frames, new entries
and new assets keep it. So does the deletion of a memory without such a mapping
(`mem_deleteBlock`), but not that of a mapping of such a memory, as its entries
stay.

Key definitions: `NotFree`, `Guarded`, `Mem`.
Key theorems: `mem_grows`, `mem_map`, `mem_addBlock`, `mem_addFixed`,
`mem_delete`, `mem_deleteBlock`.
-/
import WingOS.AssetRefs
import WingOS.PmmSafe

namespace WingOS

open Lib (bitAt)
open PageRange

/-! ### Marks -/

namespace Pmm

/-- The page `x` is marked, or it is in no section. -/
def NotFree (p : Pmm) (x : ℕ) : Prop :=
  ∀ w ∈ p.windows, ∀ j < w.pages, w.page j = x → w.bit p.mem j = true

instance (p : Pmm) (x : ℕ) : Decidable (p.NotFree x) :=
  inferInstanceAs (Decidable (∀ w ∈ p.windows, ∀ j < w.pages, w.page j = x → w.bit p.mem j = true))

/-- Marks are only added. -/
def Grows (p p' : Pmm) : Prop := p.Same p' ∧ ∀ k, bitAt p.mem k = true → bitAt p'.mem k = true

theorem Grows.refl (p : Pmm) : p.Grows p := ⟨Same.refl p, fun _ => id⟩

theorem Grows.trans {p q r : Pmm} (h : p.Grows q) (h' : q.Grows r) : p.Grows r :=
  ⟨h.1.trans h'.1, fun k hk => h'.2 k (h.2 k hk)⟩

variable {p p' : Pmm}

theorem Grows.notFree (h : p.Grows p') {x : ℕ} (hx : p.NotFree x) : p'.NotFree x := by
  intro w hw j hj hpage
  rw [h.1.1] at hw
  exact h.2 _ (hx w hw j hj hpage)

theorem grows_own (p : Pmm) (addr count : ℕ) : p.Grows (p.own addr count).2 :=
  ⟨own_same p addr count, fun _ => own_mono p addr count⟩

theorem grows_allocate (hL : Layout p.windows) {count : ℕ} {lower : Bool} {res : Except String ℕ}
    (h : p.allocate count lower = (res, p')) : p.Grows p' := by
  cases res with
  | error e =>
    obtain ⟨hsame, hmem, -⟩ := allocate_error h
    exact ⟨hsame, fun k hk => hmem ▸ hk⟩
  | ok addr =>
    obtain ⟨hsame, w, -, i, -, -, hset⟩ := allocate_ok hL h
    refine ⟨hsame, fun k hk => ?_⟩
    rw [hset]
    split
    · rfl
    · exact hk

/-- The pages of an allocation are marked after it. -/
theorem notFree_allocated (hL : Layout p.windows) {count addr : ℕ} {lower : Bool}
    (h : p.allocate count lower = (.ok addr, p')) {x : ℕ} (hx : Covers (addr, count) x) :
    p'.NotFree x := by
  obtain ⟨hsame, w, hw, i, hrun, -, hset⟩ := allocate_ok hL h
  intro v hv j hj hpage
  rw [hsame.1] at hv
  refine (hL.bit_setsRun hv hw hrun hset hj).mpr (.inr ?_)
  rw [hpage]
  exact hx

/-- They are a run of a section. -/
theorem run_allocated (hL : Layout p.windows) {count addr : ℕ} {lower : Bool}
    (h : p.allocate count lower = (.ok addr, p')) : ∃ w ∈ p'.windows, ∃ i, Run w i addr count ∧
      ∀ j, i ≤ j → j < i + count → w.bit p'.mem j = true := by
  obtain ⟨hsame, w, hw, i, hrun, -, hset⟩ := allocate_ok hL h
  refine ⟨w, by rw [hsame.1]; exact hw, i, hrun, fun j h1 h2 => ?_⟩
  have hj : j < w.pages := Nat.lt_of_lt_of_le h2 hrun.le_pages
  refine (hL.bit_setsRun hw hw hrun hset hj).mpr (.inr ?_)
  exact (hL.covers_iff hw hw hrun hj).mpr ⟨rfl, h1, h2⟩

/-- And free before it. -/
theorem free_allocated (hL : Layout p.windows) (hal : ∀ w ∈ p.windows, w.range.start % 4096 = 0)
    {count addr : ℕ} {lower : Bool} (h : p.allocate count lower = (.ok addr, p')) {x : ℕ}
    (hx : Covers (addr, count) x) (hpage : x % 4096 = 0) : ¬ p.NotFree x := by
  obtain ⟨-, w, hw, i, hrun, hclear, -⟩ := allocate_ok hL h
  intro hnot
  have hstart := hal w hw
  have haddr := hrun.addr_eq
  have hle := hrun.le_pages
  unfold Covers at hx
  unfold Window.page at haddr
  dsimp only at hx
  have hj : w.page ((x - w.range.start) / 4096) = x := by
    unfold Window.page
    omega
  have hclear' := hclear ((x - w.range.start) / 4096) (by omega) (by omega)
  rw [hnot w hw _ (by omega) hj] at hclear'
  cases hclear'

/-- Pages outside of a released run keep their marks. -/
theorem NotFree.clears (hL : Layout p.windows) {w : Window} (hw : w ∈ p.windows) {i addr count : ℕ}
    (hrun : Run w i addr count) (hsame : p.Same p') (hclear : ClearsRun w i count p.mem p'.mem) {x : ℕ}
    (hx : p.NotFree x) (hout : ¬ Covers (addr, count) x) : p'.NotFree x := by
  intro v hv j hj hpage
  rw [hsame.1] at hv
  refine (hL.bit_clearsRun hv hw hrun hclear hj).mpr ⟨hx v hv j hj hpage, ?_⟩
  rw [hpage]
  exact hout

end Pmm

/-! ### The invariant -/

/-- `Pages::from_bytes_ceil` of a memory that was allocated. -/
def AssetKind.block : AssetKind → Option PageRange
  | .memory size addr true => some (addr, Kernel.pagesCeil size)
  | _ => none

def blockAt (kinds : AssetPtr → Option AssetKind) (a : AssetPtr) : Option PageRange :=
  (kinds a).bind AssetKind.block

/-- The memory of a mapping that starts below the kernel's base; the others are
never entered in a page table. -/
def AssetKind.entered (base : ℕ) : AssetKind → Option AssetPtr
  | .mapping start _ physicalMem _ _ => if start < base then physicalMem.asset else none
  | _ => none

def enteredBy (base : ℕ) (kinds : AssetPtr → Option AssetKind) (p : AssetPtr) : Option AssetPtr :=
  (kinds p).bind (AssetKind.entered base)

/-- The `k`-th page of a memory. -/
def pageOf (addr k : ℕ) : ℕ := 4096 * ((addr + 4096 * k) % 2 ^ 64 / 4096)

/-- Not free, and not in the block of a memory that could be deleted. -/
def Guarded (base : ℕ) (pmm : Pmm) (kinds : AssetPtr → Option AssetKind) (x : ℕ) : Prop :=
  pmm.NotFree x ∧
    ∀ a b, blockAt kinds a = some b → Covers b x → ∃ p, enteredBy base kinds p = some a

/-- Not free, and in no block. -/
def Unshared (pmm : Pmm) (kinds : AssetPtr → Option AssetKind) (x : ℕ) : Prop :=
  pmm.NotFree x ∧ ∀ a b, blockAt kinds a = some b → ¬ Covers b x

structure Mem (base : ℕ) (vm : Vmm) (kinds : AssetPtr → Option AssetKind) : Prop where
  layout : Layout vm.pmm.windows
  aligned : ∀ w ∈ vm.pmm.windows, w.range.start % 4096 = 0
  size_lt : ∀ a size addr allocated, kinds a = some (.memory size addr allocated) → size < 2 ^ 64
  /-- A block is a run of marked pages. -/
  blocks : ∀ a b, blockAt kinds a = some b → 0 < b.2 ∧ ∃ w ∈ vm.pmm.windows, ∃ i,
    Run w i b.1 b.2 ∧ ∀ j, i ≤ j → j < i + b.2 → w.bit vm.pmm.mem j = true
  apart : ∀ a b a' b', blockAt kinds a = some b → blockAt kinds a' = some b' → a ≠ a' → Apart b b'
  fixed : ∀ a size addr, kinds a = some (.memory size addr false) →
    ∀ k, 4096 * k < size → Unshared vm.pmm kinds (pageOf addr k)
  leaves : ∀ t ∈ vm.written, (vm.frames t.1 t.2).present = true →
    Guarded base vm.pmm kinds (4096 * (vm.frames t.1 t.2).address)

section Mem

variable {base : ℕ} {vm : Vmm} {kinds : AssetPtr → Option AssetKind}

theorem Unshared.guarded {pmm : Pmm} {x : ℕ} (h : Unshared pmm kinds x) : Guarded base pmm kinds x :=
  ⟨h.1, fun a b hb hc => absurd hc (h.2 a b hb)⟩

theorem Guarded.grows {pmm pmm' : Pmm} {x : ℕ} (h : Guarded base pmm kinds x) (hg : pmm.Grows pmm') :
    Guarded base pmm' kinds x := ⟨hg.notFree h.1, h.2⟩

theorem mem_grows (h : Mem base vm kinds) {pmm : Pmm} (hg : vm.pmm.Grows pmm) :
    Mem base { vm with pmm } kinds where
  layout := by
    rw [hg.1.1]
    exact h.layout
  aligned := by
    rw [hg.1.1]
    exact h.aligned
  size_lt := h.size_lt
  blocks := by
    intro a b hb
    obtain ⟨hpos, w, hw, i, hrun, hset⟩ := h.blocks a b hb
    exact ⟨hpos, w, by rw [hg.1.1]; exact hw, i, hrun, fun j h1 h2 => hg.2 _ (hset j h1 h2)⟩
  apart := h.apart
  fixed := fun a size addr ha k hk =>
    ⟨hg.notFree (h.fixed a size addr ha k hk).1, (h.fixed a size addr ha k hk).2⟩
  leaves := fun t ht hp => (h.leaves t ht hp).grows hg

/-! ### Page tables -/

theorem mem_clearTable (h : Mem base vm kinds) (t : ℕ) : Mem base (vm.clearTable t) kinds :=
  { h with
    leaves := by
      intro u hu hp
      unfold Vmm.clearTable at hp ⊢
      dsimp only at hp ⊢
      split at hp
      · cases hp
      · rename_i hne
        rw [if_neg hne]
        exact h.leaves u hu hp }

theorem mem_install (h : Mem base vm kinds) {t i : ℕ} {page : Page}
    (hpage : Guarded base vm.pmm kinds (4096 * page.address)) : Mem base (vm.install t i page) kinds :=
  { h with
    leaves := by
      intro u hu hp
      unfold Vmm.install Vmm.setEntry at hu hp ⊢
      dsimp only at hu hp ⊢
      split
      · exact hpage
      · rename_i hne
        rw [if_neg hne] at hp
        rcases List.mem_cons.mp hu with rfl | hu
        · exact absurd ⟨rfl, rfl⟩ hne
        · exact h.leaves u hu hp }

/-- New rights for an entry. -/
theorem mem_setEntry (h : Mem base vm kinds) {t i : ℕ} {page : Page}
    (hpresent : page.present = (vm.frames t i).present)
    (haddr : page.address = (vm.frames t i).address) : Mem base (vm.setEntry t i page) kinds :=
  { h with
    leaves := by
      intro u hu hp
      unfold Vmm.setEntry at hp ⊢
      dsimp only at hp ⊢
      split
      · rename_i heq
        rw [if_pos heq, hpresent] at hp
        rw [haddr]
        have := h.leaves u hu
        rw [heq.1, heq.2] at this
        exact this hp
      · rename_i hne
        rw [if_neg hne] at hp
        exact h.leaves u hu hp }

/-- The pages of a block are not free. -/
theorem Mem.notFree_block (h : Mem base vm kinds) {a : AssetPtr} {b : PageRange}
    (hb : blockAt kinds a = some b) {x : ℕ} (hc : Covers b x) : vm.pmm.NotFree x := by
  intro w hw j hj hj'
  obtain ⟨-, v, hv, i, hrun, hset⟩ := h.blocks a b hb
  rw [← hj'] at hc
  obtain ⟨rfl, h1, h2⟩ := (h.layout.covers_iff hw hv hrun hj).mp hc
  exact hset j h1 h2

/-- A new frame is in no block: those were marked before. -/
theorem unshared_allocated (h : Mem base vm kinds) {count addr : ℕ} {lower : Bool} {pmm : Pmm}
    (ha : vm.pmm.allocate count lower = (.ok addr, pmm)) {x : ℕ} (hx : Covers (addr, count) x)
    (hpage : x % 4096 = 0) : Unshared pmm kinds x := by
  refine ⟨Pmm.notFree_allocated h.layout ha hx, fun a b hb hc => ?_⟩
  exact Pmm.free_allocated h.layout h.aligned ha hx hpage (h.notFree_block hb hc)

/-- A new block is apart from the others. -/
theorem apart_allocated (h : Mem base vm kinds) {count addr : ℕ} {lower : Bool} {pmm : Pmm}
    (ha : vm.pmm.allocate count lower = (.ok addr, pmm)) {a : AssetPtr} {b : PageRange}
    (hb : blockAt kinds a = some b) : Apart (addr, count) b := by
  obtain ⟨hpos, v, hv, i', hrun', -⟩ := h.blocks a b hb
  obtain ⟨-, w, hw, i, hrun, -, -⟩ := Pmm.allocate_ok h.layout ha
  have hal := h.aligned w hw
  refine h.layout.apart hv hw hrun (Pmm.allocate_pos ha) hrun' hpos fun j hj hc => ?_
  exact (unshared_allocated h ha hc (by unfold Window.page; omega)).2 a b hb

theorem allocate_aligned (h : Mem base vm kinds) {count addr : ℕ} {lower : Bool} {pmm : Pmm}
    (ha : vm.pmm.allocate count lower = (.ok addr, pmm)) : addr % 4096 = 0 := by
  obtain ⟨-, w, hw, i, hrun, -, -⟩ := Pmm.allocate_ok h.layout ha
  have h1 := h.aligned w hw
  have h2 := hrun.addr_eq
  unfold Window.page at h2
  omega

/-- `map` of a page that is guarded. -/
theorem mem_mapPage {vaddr : ℕ} {page : Page} : ∀ {level t : ℕ} {v v' : Vmm}
    {res : Except String Unit}, Mem base v kinds → Guarded base v.pmm kinds (4096 * page.address) →
    Vmm.mapPage vaddr page level t v = (res, v') → Mem base v' kinds ∧ v.pmm.Grows v'.pmm
  | 0, t, vm, vm', res, h, _, hmap => by
    unfold Vmm.mapPage at hmap
    simp only [Prod.mk.injEq] at hmap
    rw [← hmap.2]
    exact ⟨h, Pmm.Grows.refl _⟩
  | 1, t, vm, vm', res, h, hpage, hmap => by
    unfold Vmm.mapPage at hmap
    simp only [Prod.mk.injEq] at hmap
    rw [← hmap.2]
    exact ⟨mem_install h hpage, Pmm.Grows.refl _⟩
  | level + 2, t, vm, vm', res, h, hpage, hmap => by
    unfold Vmm.mapPage at hmap
    dsimp only at hmap
    split at hmap
    · split at hmap
      · rename_i e pmm ha
        simp only [Prod.mk.injEq] at hmap
        rw [← hmap.2]
        have hg := Pmm.grows_allocate h.layout ha
        exact ⟨mem_grows h hg, hg⟩
      · rename_i addr pmm ha
        have hg := Pmm.grows_allocate h.layout ha
        have hal := allocate_aligned h ha
        have hframe : Guarded base pmm kinds (4096 * (addr / 4096)) := by
          rw [Nat.mul_div_cancel' (Nat.dvd_of_mod_eq_zero hal)]
          refine (unshared_allocated h ha ?_ hal).guarded
          unfold Covers
          dsimp only
          omega
        have hmem : Mem base ((Vmm.clearTable { vm with pmm } addr).install t (tableIndex (level + 2) vaddr)
            ⟨true, page.writeable, page.user, addr / 4096⟩) kinds :=
          mem_install (mem_clearTable (mem_grows h hg) addr) hframe
        obtain ⟨hmem', hg'⟩ := mem_mapPage hmem (hpage.grows hg) hmap
        exact ⟨hmem', hg.trans hg'⟩
    · refine mem_mapPage (v := vm.setEntry t (tableIndex (level + 2) vaddr) _) ?_ hpage hmap
      exact mem_setEntry h rfl rfl

theorem mem_mapPages {root virtBegin physBegin : ℕ} {flags : PageFlags} : ∀ {n k : ℕ} {vm vm' : Vmm}
    {res : Except String Unit}, Mem base vm kinds →
    (∀ i, k ≤ i → i < k + n → Guarded base vm.pmm kinds (pageOf physBegin i)) →
    Vmm.mapPages root virtBegin physBegin flags n k vm = (res, vm') →
    Mem base vm' kinds ∧ vm.pmm.Grows vm'.pmm
  | 0, k, vm, vm', res, h, _, hmap => by
    unfold Vmm.mapPages at hmap
    simp only [Prod.mk.injEq] at hmap
    rw [← hmap.2]
    exact ⟨h, Pmm.Grows.refl _⟩
  | n + 1, k, vm, vm', res, h, hpages, hmap => by
    unfold Vmm.mapPages at hmap
    have hk : Guarded base vm.pmm kinds
        (4096 * (pageCreate flags ((physBegin + 4096 * k) % 2 ^ 64)).address) :=
      hpages k (Nat.le_refl k) (by omega)
    split at hmap
    · rename_i e v hone
      simp only [Prod.mk.injEq] at hmap
      rw [← hmap.2]
      exact mem_mapPage h hk hone
    · rename_i v hone
      obtain ⟨hmem, hg⟩ := mem_mapPage h hk hone
      obtain ⟨hmem', hg'⟩ := mem_mapPages hmem
        (fun i h1 h2 => (hpages i (by omega) (by omega)).grows hg) hmap
      exact ⟨hmem', hg.trans hg'⟩

/-- `VmmSpace::map` to pages that are guarded. -/
theorem mem_map (h : Mem base vm kinds) {root : ℕ} {virt phys : Range} {flags : PageFlags} {vm' : Vmm}
    {res : Except String Unit}
    (hpages : ∀ k < phys.len / 4096, Guarded base vm.pmm kinds (pageOf phys.start k))
    (hmap : vm.map root virt phys flags = (res, vm')) : Mem base vm' kinds := by
  unfold Vmm.map at hmap
  split at hmap
  · simp only [Prod.mk.injEq] at hmap
    exact hmap.2 ▸ h
  · rename_i hlen
    split at hmap
    · simp only [Prod.mk.injEq] at hmap
      exact hmap.2 ▸ h
    · rw [not_not.mp hlen] at hmap
      refine (mem_mapPages h (fun i _ hi => hpages i ?_) hmap).1
      omega

/-! ### Assets -/

theorem blockAt_update_of_ne {p a : AssetPtr} (h : a ≠ p) (k : Option AssetKind) :
    blockAt (Function.update kinds p k) a = blockAt kinds a := by
  unfold blockAt
  rw [Function.update_of_ne h]

theorem enteredBy_update_of_ne {p q : AssetPtr} (h : q ≠ p) (k : Option AssetKind) :
    enteredBy base (Function.update kinds p k) q = enteredBy base kinds q := by
  unfold enteredBy
  rw [Function.update_of_ne h]

theorem blockAt_eq_some {a : AssetPtr} {b : PageRange} :
    blockAt kinds a = some b ↔
      ∃ size, kinds a = some (.memory size b.1 true) ∧ b.2 = Kernel.pagesCeil size := by
  unfold blockAt
  rw [Option.bind_eq_some_iff]
  constructor
  · rintro ⟨k, hk, hb⟩
    unfold AssetKind.block at hb
    split at hb
    · rename_i size addr
      cases hb
      exact ⟨size, hk, rfl⟩
    · cases hb
  · rintro ⟨size, hk, hb⟩
    exact ⟨_, hk, by rw [AssetKind.block, ← hb]⟩

/-- Other kinds with no more memories, in which every memory keeps a mapping
that was entered. -/
theorem mem_kinds (h : Mem base vm kinds) {kinds' : AssetPtr → Option AssetKind}
    (hmem : ∀ a size addr allocated, kinds' a = some (.memory size addr allocated) →
      kinds a = some (.memory size addr allocated))
    (hguard : ∀ p a b, blockAt kinds' a = some b → enteredBy base kinds p = some a →
      ∃ q, enteredBy base kinds' q = some a) : Mem base vm kinds' := by
  have hblock : ∀ a b, blockAt kinds' a = some b → blockAt kinds a = some b := by
    intro a b hb
    obtain ⟨size, hk, hb2⟩ := blockAt_eq_some.mp hb
    exact blockAt_eq_some.mpr ⟨size, hmem a _ _ _ hk, hb2⟩
  exact
    { layout := h.layout
      aligned := h.aligned
      size_lt := fun a size addr al ha => h.size_lt a size addr al (hmem a _ _ _ ha)
      blocks := fun a b hb => h.blocks a b (hblock a b hb)
      apart := fun a b a' b' hb hb' => h.apart a b a' b' (hblock a b hb) (hblock a' b' hb')
      fixed := fun a size addr ha k hk =>
        ⟨(h.fixed a size addr (hmem a _ _ _ ha) k hk).1,
          fun a' b hb => (h.fixed a size addr (hmem a _ _ _ ha) k hk).2 a' b (hblock a' b hb)⟩
      leaves := by
        intro t ht hp
        obtain ⟨hfree, hg⟩ := h.leaves t ht hp
        refine ⟨hfree, fun a b hb hc => ?_⟩
        obtain ⟨p, hp⟩ := hg a b (hblock a b hb) hc
        exact hguard p a b hb hp }

/-- A new mapping. -/
theorem mem_addMapping (h : Mem base vm kinds) {p : AssetPtr} (hp : kinds p = none) {start stop : ℕ}
    {physicalMem : AssetRef} {writable executable : Bool} :
    Mem base vm (Function.update kinds p (some (.mapping start stop physicalMem writable executable))) := by
  refine mem_kinds h ?_ ?_
  · intro a size addr al ha
    rcases eq_or_ne a p with rfl | hne
    · rw [Function.update_self] at ha
      cases ha
    · rwa [Function.update_of_ne hne] at ha
  · intro q a b _ hq
    refine ⟨q, ?_⟩
    have hqp : q ≠ p := by
      rintro rfl
      unfold enteredBy at hq
      rw [hp] at hq
      cases hq
    rw [enteredBy_update_of_ne hqp]
    exact hq

/-- The deletion of an asset that no entry leads to: a mapping that was not
entered or is of a memory at a fixed address, or such a memory. -/
theorem mem_delete (h : Mem base vm kinds) {a : AssetPtr}
    (hdrop : ∀ m, enteredBy base kinds a = some m → blockAt kinds m = none) :
    Mem base vm (Function.update kinds a none) := by
  refine mem_kinds h ?_ ?_
  · intro b size addr al hb
    rcases eq_or_ne b a with rfl | hne
    · rw [Function.update_self] at hb
      cases hb
    · rwa [Function.update_of_ne hne] at hb
  · intro q m b hb hq
    refine ⟨q, ?_⟩
    have hqa : q ≠ a := by
      rintro rfl
      have hma : m ≠ q := by
        rintro rfl
        unfold blockAt at hb
        simp at hb
      rw [blockAt_update_of_ne hma, hdrop m hq] at hb
      cases hb
    rw [enteredBy_update_of_ne hqa]
    exact hq

theorem enteredBy_addMemory {p : AssetPtr} (hp : kinds p = none) {size addr : ℕ} {allocated : Bool} :
    enteredBy base (Function.update kinds p (some (.memory size addr allocated))) =
      enteredBy base kinds := by
  funext q
  rcases eq_or_ne q p with rfl | hq
  · unfold enteredBy
    rw [Function.update_self, hp]
    rfl
  · exact enteredBy_update_of_ne hq _

theorem memory_of_update {p a : AssetPtr} {k : AssetKind} {size addr : ℕ} {allocated : Bool}
    (h : Function.update kinds p (some k) a = some (.memory size addr allocated)) :
    (a = p ∧ k = .memory size addr allocated) ∨ kinds a = some (.memory size addr allocated) := by
  rcases eq_or_ne a p with rfl | ha
  · rw [Function.update_self, Option.some_inj] at h
    exact .inl ⟨rfl, h⟩
  · rw [Function.update_of_ne ha] at h
    exact .inr h

/-- A new memory at a fixed address, whose pages are not free and in no
block. -/
theorem mem_addFixed (h : Mem base vm kinds) {p : AssetPtr} (hp : kinds p = none) {size addr : ℕ}
    (hsize : size < 2 ^ 64)
    (hpages : ∀ k, 4096 * k < size → Unshared vm.pmm kinds (pageOf addr k)) :
    Mem base vm (Function.update kinds p (some (.memory size addr false))) := by
  have hblock : blockAt (Function.update kinds p (some (.memory size addr false))) = blockAt kinds := by
    funext a
    rcases eq_or_ne a p with rfl | ha
    · unfold blockAt
      rw [Function.update_self, hp]
      rfl
    · exact blockAt_update_of_ne ha _
  refine ⟨h.layout, h.aligned, ?_, by rw [hblock]; exact h.blocks, by rw [hblock]; exact h.apart, ?_, ?_⟩
  · intro a size' addr' al ha
    rcases memory_of_update ha with ⟨-, hk⟩ | ha'
    · cases hk
      exact hsize
    · exact h.size_lt a size' addr' al ha'
  · intro a size' addr' ha k hk
    unfold Unshared
    rw [hblock]
    rcases memory_of_update ha with ⟨-, hkind⟩ | ha'
    · cases hkind
      exact hpages k hk
    · exact h.fixed a size' addr' ha' k hk
  · unfold Guarded
    rw [hblock, enteredBy_addMemory hp]
    exact h.leaves

/-- A new memory with the pages of an allocation. -/
theorem mem_addBlock (h : Mem base vm kinds) {p : AssetPtr} (hp : kinds p = none) {size addr : ℕ}
    (hsize : size < 2 ^ 64) {lower : Bool} {pmm : Pmm}
    (ha : vm.pmm.allocate (Kernel.pagesCeil size) lower = (.ok addr, pmm)) :
    Mem base { vm with pmm } (Function.update kinds p (some (.memory size addr true))) := by
  have hgrow := mem_grows h (Pmm.grows_allocate h.layout ha)
  have hself : blockAt (Function.update kinds p (some (.memory size addr true))) p =
      some (addr, Kernel.pagesCeil size) := by
    unfold blockAt
    rw [Function.update_self]
    rfl
  -- what is not free before is not in the new block
  have hnew : ∀ x, x % 4096 = 0 → vm.pmm.NotFree x → ¬ Covers (addr, Kernel.pagesCeil size) x :=
    fun x hx hfree hc => Pmm.free_allocated h.layout h.aligned ha hc hx hfree
  refine ⟨hgrow.layout, hgrow.aligned, ?_, ?_, ?_, ?_, ?_⟩
  · intro a size' addr' al ha'
    rcases memory_of_update ha' with ⟨-, hk⟩ | ha'
    · cases hk
      exact hsize
    · exact h.size_lt a size' addr' al ha'
  · intro a b hb
    rcases eq_or_ne a p with rfl | hne
    · rw [hself, Option.some_inj] at hb
      subst hb
      exact ⟨Pmm.allocate_pos ha, Pmm.run_allocated h.layout ha⟩
    · rw [blockAt_update_of_ne hne] at hb
      exact hgrow.blocks a b hb
  · intro a b a' b' hb hb' hne
    rcases eq_or_ne a p with rfl | hap
    · rw [hself, Option.some_inj] at hb
      rw [blockAt_update_of_ne hne.symm] at hb'
      exact hb ▸ apart_allocated h ha hb'
    · rw [blockAt_update_of_ne hap] at hb
      rcases eq_or_ne a' p with rfl | hap'
      · rw [hself, Option.some_inj] at hb'
        exact hb' ▸ (apart_allocated h ha hb).symm
      · rw [blockAt_update_of_ne hap'] at hb'
        exact h.apart a b a' b' hb hb' hne
  · intro a size' addr' ha' k hk
    rcases memory_of_update ha' with ⟨-, hkind⟩ | hfixed
    · cases hkind
    · refine ⟨(hgrow.fixed a size' addr' hfixed k hk).1, fun a' b hb => ?_⟩
      rcases eq_or_ne a' p with rfl | hne
      · rw [hself, Option.some_inj] at hb
        rw [← hb]
        exact hnew _ (Nat.mul_mod_right _ _) (h.fixed a size' addr' hfixed k hk).1
      · rw [blockAt_update_of_ne hne] at hb
        exact (h.fixed a size' addr' hfixed k hk).2 a' b hb
  · intro t ht hpresent
    refine ⟨(hgrow.leaves t ht hpresent).1, fun a b hb hc => ?_⟩
    rw [enteredBy_addMemory hp]
    rcases eq_or_ne a p with rfl | hne
    · rw [hself, Option.some_inj] at hb
      rw [← hb] at hc
      exact absurd hc (hnew _ (Nat.mul_mod_right _ _) (h.leaves t ht hpresent).1)
    · rw [blockAt_update_of_ne hne] at hb
      exact (h.leaves t ht hpresent).2 a b hb hc

/-- The pages of a memory, while a mapping of it is entered. -/
theorem Mem.guarded_page (h : Mem base vm kinds) {a p : AssetPtr} {size addr : ℕ} {allocated : Bool}
    (ha : kinds a = some (.memory size addr allocated)) (hp : enteredBy base kinds p = some a) {k : ℕ}
    (hk : k < size / 4096) : Guarded base vm.pmm kinds (pageOf addr k) := by
  cases allocated with
  | false => exact (h.fixed a size addr ha k (by omega)).guarded
  | true =>
    have hb : blockAt kinds a = some (addr, Kernel.pagesCeil size) :=
      blockAt_eq_some.mpr ⟨size, ha, rfl⟩
    obtain ⟨hpos, w, hw, i, hrun, -⟩ := h.blocks a _ hb
    have hcover : Covers (addr, Kernel.pagesCeil size) (pageOf addr k) := by
      have hal := h.aligned w hw
      have hproper := h.layout.proper w hw
      have hstop := w.range.stop_lt
      have haddr := hrun.addr_eq
      have hle := hrun.le_pages
      have hsize := h.size_lt a size addr true ha
      unfold Window.page at haddr
      unfold Window.pages at hle
      unfold Kernel.pagesCeil at hpos hle
      unfold Covers pageOf Kernel.pagesCeil
      dsimp only at hpos hle haddr ⊢
      omega
    refine ⟨h.notFree_block hb hcover, fun a' b' hb' hc' => ⟨p, ?_⟩⟩
    rcases eq_or_ne a' a with rfl | hne
    · exact hp
    · have hapart := h.apart a' b' a _ hb' hb hne
      unfold Covers at hc' hcover
      unfold Apart at hapart
      dsimp only at hcover hapart
      omega

/-- **A memory that is deleted** gives its pages back. If no mapping of it was
entered, no entry leads to them. -/
theorem mem_deleteBlock (h : Mem base vm kinds) {a : AssetPtr} {size addr : ℕ}
    (ha : kinds a = some (.memory size addr true)) (hun : ∀ p, enteredBy base kinds p ≠ some a) :
    ∃ pmm, vm.pmm.release addr (size / 4096) = some (.ok (), pmm) ∧
      Mem base { vm with pmm } (Function.update kinds a none) := by
  have hb : blockAt kinds a = some (addr, Kernel.pagesCeil size) :=
    blockAt_eq_some.mpr ⟨size, ha, rfl⟩
  obtain ⟨hpos, w, hw, i, hrun, hmarked⟩ := h.blocks a _ hb
  have hsize := h.size_lt a size addr true ha
  have hle : size / 4096 ≤ Kernel.pagesCeil size := by
    unfold Kernel.pagesCeil at hpos ⊢
    dsimp only at hpos
    omega
  have hpages := hrun.le_pages
  dsimp only at hpos hmarked hpages
  have hrun' : Run w i addr (size / 4096) := ⟨hrun.addr_eq, by omega⟩
  obtain ⟨pmm, hrel, hsame, hclear⟩ := Pmm.release_ok h.layout hw hrun' (by omega)
    fun j h1 h2 => hmarked j h1 (by omega)
  refine ⟨pmm, hrel, ?_⟩
  have hsub : ∀ x, Covers (addr, size / 4096) x → Covers (addr, Kernel.pagesCeil size) x := by
    intro x hx
    unfold Covers at hx ⊢
    dsimp only at hx ⊢
    omega
  have hkeep : ∀ x, vm.pmm.NotFree x → ¬ Covers (addr, Kernel.pagesCeil size) x → pmm.NotFree x :=
    fun x hx hc => hx.clears h.layout hw hrun' hsame hclear fun hc' => hc (hsub x hc')
  have hentered : enteredBy base kinds a = none := by
    unfold enteredBy
    rw [ha]
    rfl
  have hdel : Mem base vm (Function.update kinds a none) := by
    refine mem_delete h fun m hm => ?_
    rw [hentered] at hm
    cases hm
  have hold : ∀ {a' b'}, blockAt (Function.update kinds a none) a' = some b' →
      a' ≠ a ∧ blockAt kinds a' = some b' := by
    intro a' b' hb'
    have hne : a' ≠ a := by
      rintro rfl
      unfold blockAt at hb'
      simp at hb'
    rw [blockAt_update_of_ne hne] at hb'
    exact ⟨hne, hb'⟩
  refine ⟨by rw [hsame.1]; exact h.layout, by rw [hsame.1]; exact h.aligned, hdel.size_lt, ?_,
    hdel.apart, ?_, ?_⟩
  · intro a' b' hb'
    obtain ⟨hpos', v, hv, i', hrun'', hmarked'⟩ := hdel.blocks a' b' hb'
    refine ⟨hpos', v, by rw [hsame.1]; exact hv, i', hrun'', fun j h1 h2 => ?_⟩
    have hj : j < v.pages := by
      have := hrun''.le_pages
      omega
    refine (h.layout.bit_clearsRun hv hw hrun' hclear hj).mpr ⟨hmarked' j h1 h2, fun hc => ?_⟩
    have hc' : Covers b' (v.page j) := (h.layout.covers_iff hv hv hrun'' hj).mpr ⟨rfl, h1, h2⟩
    have hcov := hsub _ hc
    have hapart := h.apart a' b' a _ (hold hb').2 hb (hold hb').1
    unfold Covers at hc' hcov
    unfold Apart at hapart
    dsimp only at hcov hapart
    omega
  · intro a' size' addr' ha' k hk
    have hfixed := hdel.fixed a' size' addr' ha' k hk
    have hne : a' ≠ a := by
      rintro rfl
      simp at ha'
    rw [Function.update_of_ne hne] at ha'
    exact ⟨hkeep _ hfixed.1 ((h.fixed a' size' addr' ha' k hk).2 a _ hb), hfixed.2⟩
  · intro t ht hpresent
    refine ⟨hkeep _ (h.leaves t ht hpresent).1 fun hc => ?_, (hdel.leaves t ht hpresent).2⟩
    obtain ⟨p, hp⟩ := (h.leaves t ht hpresent).2 a _ hb hc
    exact hun p hp

end Mem
end WingOS
