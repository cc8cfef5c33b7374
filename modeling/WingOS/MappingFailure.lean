/-
# Mappings that fail

`Space::create_mapping` (`kernel/generic/asset.cpp`) puts the new asset into the
table before it checks anything, and cleans up by hand at each exit. The two
checks of the range release the locks and leave the asset, which keeps a
reference to the memory. When `VmmSpace::map` fails, the asset is removed, and
what was mapped before the frames ran out stays.

So a failed call leaves no trace just if the range passes the checks, and the
lengths were refused or every page before the one that lacked a frame was mapped
as asked already (`failed_mapping_iff`). The locks are released at every exit
(`createMapping_kernel`).

Key definitions: `Locked`, `Locked.createMapping`, `StopsClean`, `NoTrace`,
`LeavesNothing`.
Key theorems: `mapPages_error_iff`, `createMapping_kernel`, `failed_mapping_iff`.
-/
import WingOS.RangeMapping
import WingOS.StaleMappings

namespace WingOS

/-! ### A loop that runs out of frames -/

section Loop

variable {p₀ : Pmm} {root virtBegin physBegin : ℕ} {flags : PageFlags} {n k : ℕ} {v v' v₁ : Vmm}

/-- The page `k` is mapped as asked. -/
def MappedAlready (root virtBegin physBegin : ℕ) (flags : PageFlags) (v : Vmm) (k : ℕ) : Prop :=
  entryOf root v ((virtBegin + 4096 * k) % 2 ^ 64) =
    some (pageCreate flags ((physBegin + 4096 * k) % 2 ^ 64))

/-- Of `n` pages from the `k`-th on, some first ones are mapped as asked, and for
the next one the free frames do not suffice. -/
def StopsClean (root virtBegin physBegin : ℕ) (flags : PageFlags) (v : Vmm) (n k : ℕ) : Prop :=
  ∃ i < n, (∀ l, k ≤ l → l < k + i → MappedAlready root virtBegin physBegin flags v l) ∧
    ¬ v.pmm.HasFree (missing v.frames ((virtBegin + 4096 * (k + i)) % 2 ^ 64) 4 root)

theorem pageNo_step (virtBegin k : ℕ) :
    pageNo ((virtBegin + 4096 * k) % 2 ^ 64) = (virtBegin / 4096 + k) % 2 ^ 36 := by
  unfold pageNo
  omega

/-- A call of `map` at the root, with the frames it needs. -/
theorem mapPage_root_ok_iff (h : Tables p₀ root v) (vaddr paddr : ℕ) :
    (v.mapPage vaddr (pageCreate flags paddr) 4 root).1 = .ok () ↔
      v.pmm.HasFree (missing v.frames vaddr 4 root) :=
  mapPage_ok_iff (p := []) rfl h rfl (tableAt_nil _ _) fun _ _ _ hp => absurd hp (by simp)

/-- A page that is mapped again as it is: the loop goes on from the same tables. -/
theorem mapPage_again (h : Tables p₀ root v) (hk : MappedAlready root virtBegin physBegin flags v k) :
    ∃ v₁, v.mapPage ((virtBegin + 4096 * k) % 2 ^ 64)
        (pageCreate flags ((physBegin + 4096 * k) % 2 ^ 64)) 4 root = (.ok (), v₁) ∧
      Tables p₀ root v₁ ∧ (∀ a, entryOf root v₁ a = entryOf root v a) ∧ v₁.pmm = v.pmm ∧
      ∀ a, missing v₁.frames a 4 root = missing v.frames a 4 root := by
  have hpage : (pageCreate flags ((physBegin + 4096 * k) % 2 ^ 64)).present = true := rfl
  obtain ⟨v₁, hmap, hpmm, htables⟩ := mapPage_present h hpage hk
  obtain ⟨hT, -, hentry⟩ := entryOf_mapPage h hmap
  refine ⟨v₁, hmap, hT, fun a => ?_, hpmm, fun a => missing_congr htables a (p := []) rfl (tableAt_nil _ _)⟩
  rw [hentry a]
  split
  · rename_i hpage
    rw [entryOf_congr hpage.2]
    exact hk.symm
  · rfl

theorem stopsClean_congr (hentry : ∀ a, entryOf root v₁ a = entryOf root v a) (hpmm : v₁.pmm = v.pmm)
    (hmissing : ∀ a, missing v₁.frames a 4 root = missing v.frames a 4 root) :
    StopsClean root virtBegin physBegin flags v₁ n k ↔ StopsClean root virtBegin physBegin flags v n k := by
  unfold StopsClean MappedAlready
  simp only [hentry, hpmm, hmissing]

/-- A first page that is mapped as asked. -/
theorem stopsClean_cons (hk : MappedAlready root virtBegin physBegin flags v k)
    (hfree : v.pmm.HasFree (missing v.frames ((virtBegin + 4096 * k) % 2 ^ 64) 4 root)) :
    StopsClean root virtBegin physBegin flags v (n + 1) k ↔
      StopsClean root virtBegin physBegin flags v n (k + 1) := by
  constructor
  · rintro ⟨i, hi, hbefore, hno⟩
    cases i with
    | zero => exact absurd hfree hno
    | succ i =>
      refine ⟨i, by omega, fun l h1 h2 => hbefore l (by omega) (by omega), ?_⟩
      rwa [show k + 1 + i = k + (i + 1) by omega]
  · rintro ⟨i, hi, hbefore, hno⟩
    refine ⟨i + 1, by omega, fun l h1 h2 => ?_, ?_⟩
    · by_cases hlk : l = k
      · exact hlk ▸ hk
      · exact hbefore l (by omega) (by omega)
    · rwa [show k + (i + 1) = k + 1 + i by omega]

/-- A page that the loop has mapped before it stopped is still mapped so: all
pages have tables after `2 ^ 36` of them. -/
theorem entryOf_first (hT : Tables p₀ root v₁) {e : String}
    (hfirst : entryOf root v₁ ((virtBegin + 4096 * k) % 2 ^ 64) =
      some (pageCreate flags ((physBegin + 4096 * k) % 2 ^ 64)))
    (hrest : v₁.mapPages root virtBegin physBegin flags n (k + 1) = (.error e, v')) :
    entryOf root v' ((virtBegin + 4096 * k) % 2 ^ 64) =
      some (pageCreate flags ((physBegin + 4096 * k) % 2 ^ 64)) := by
  obtain ⟨-, j, hj, hiff, hstopped, hm⟩ := mapPages_spec hT hrest
  have hjn : j < n := by
    have : j ≠ n := fun hc => nomatch hiff.mpr hc
    omega
  have hnone := hstopped hjn
  have huntouched : j + 1 ≤ 2 ^ 36 → entryOf root v' ((virtBegin + 4096 * k) % 2 ^ 64) =
      some (pageCreate flags ((physBegin + 4096 * k) % 2 ^ 64)) := by
    intro hle
    rw [hm.untouched _ fun i h1 h2 hc => ?_, hfirst]
    rw [pageNo_step, pageNo_step] at hc
    omega
  have hshort : j + 1 < 2 ^ 36 := by
    by_contra hlong
    rcases Nat.lt_or_ge (2 ^ 36) (j + 1) with hlt | hge
    · -- the page at which it stopped was mapped a round before
      rw [hm.touched _ (k + 1 + j - 2 ^ 36) (by omega) (by omega) (by
        rw [pageNo_step, pageNo_step]
        omega) fun l h1 h2 hc => by
        rw [pageNo_step, pageNo_step] at hc
        omega] at hnone
      cases hnone
    · have hpage : pageNo ((virtBegin + 4096 * (k + 1 + j)) % 2 ^ 64) =
          pageNo ((virtBegin + 4096 * k) % 2 ^ 64) := by
        rw [pageNo_step, pageNo_step]
        omega
      rw [entryOf_congr hpage, huntouched hge] at hnone
      cases hnone
  exact huntouched (by omega)

/-- **A loop that fails** leaves all entries as they were just if all that it has
mapped was mapped so already. -/
theorem mapPages_error_iff : ∀ {n k : ℕ} {v v' : Vmm} {e : String}, Tables p₀ root v →
    v.mapPages root virtBegin physBegin flags n k = (.error e, v') →
    ((∀ a, entryOf root v' a = entryOf root v a) ↔ StopsClean root virtBegin physBegin flags v n k)
  | 0, _, _, _, _, _, hmap => by
    unfold Vmm.mapPages at hmap
    cases (Prod.mk.inj hmap).1
  | n + 1, k, v, v', e, h, hmap => by
    have hiff : (v.mapPage ((virtBegin + 4096 * k) % 2 ^ 64)
        (pageCreate flags ((physBegin + 4096 * k) % 2 ^ 64)) 4 root).1 = .ok () ↔
        v.pmm.HasFree (missing v.frames ((virtBegin + 4096 * k) % 2 ^ 64) 4 root) := mapPage_root_ok_iff h _ _
    unfold Vmm.mapPages at hmap
    cases hfirst : v.mapPage ((virtBegin + 4096 * k) % 2 ^ 64)
        (pageCreate flags ((physBegin + 4096 * k) % 2 ^ 64)) 4 root with
    | mk res₁ v₁ =>
    obtain ⟨hT, -, hentry⟩ := entryOf_mapPage h hfirst
    rw [hfirst] at hmap hiff
    cases res₁ with
    | error e₁ =>
      simp only [Prod.mk.injEq] at hmap
      obtain ⟨-, rfl⟩ := hmap
      have hfailed : (.error e₁ : Except String Unit) ≠ .ok () := fun hc => by cases hc
      refine ⟨fun _ => ⟨0, Nat.succ_pos n, fun l h1 h2 => by omega, fun hfree => ?_⟩, fun _ a => ?_⟩
      · exact hfailed (hiff.mpr hfree)
      · rw [hentry a, if_neg fun hc => hfailed hc.1]
    | ok u =>
      by_cases hk : MappedAlready root virtBegin physBegin flags v k
      · obtain ⟨v₂, hagain, -, hsame, hpmm, hmissing⟩ := mapPage_again h hk
        obtain rfl : v₁ = v₂ := (Prod.mk.inj (hfirst.symm.trans hagain)).2
        rw [stopsClean_cons hk (hiff.mp rfl), ← stopsClean_congr hsame hpmm hmissing,
          ← mapPages_error_iff hT hmap]
        exact forall_congr' fun a => by rw [hsame a]
      · have hnew : entryOf root v₁ ((virtBegin + 4096 * k) % 2 ^ 64) =
            some (pageCreate flags ((physBegin + 4096 * k) % 2 ^ 64)) := by
          rw [hentry, if_pos ⟨rfl, rfl⟩]
        constructor
        · intro hall
          exact absurd ((hall _).symm.trans (entryOf_first hT hnew hmap)) hk
        · rintro ⟨i, hi, hbefore, hno⟩
          cases i with
          | zero => exact absurd (hiff.mp rfl) hno
          | succ i => exact absurd (hbefore k (Nat.le_refl k) (by omega)) hk

/-! ### Translations -/

/-- Tables translate alike just if they have the same entries. -/
theorem translate_eq_iff (h : Tables p₀ root v) (h' : Tables p₀ root v') :
    (∀ a, translate v'.frames root a = translate v.frames root a) ↔
      ∀ a, entryOf root v' a = entryOf root v a := by
  constructor
  · intro hall a
    obtain ⟨b, hb, hpage⟩ : ∃ b, Canonical b ∧ pageNo b = pageNo a := by
      have hlt : pageNo a < 2 ^ 36 := Nat.mod_lt _ (by decide)
      by_cases hlow : pageNo a < 2 ^ 35
      · refine ⟨4096 * pageNo a, ?_, ?_⟩
        · unfold Canonical
          omega
        · rw [pageNo]
          omega
      · refine ⟨2 ^ 64 - 2 ^ 48 + 4096 * pageNo a, ?_, ?_⟩
        · unfold Canonical
          omega
        · rw [pageNo]
          omega
    have hpresent : ∀ {w : Vmm} {e : Page}, entryOf root w b = some e → e.present = true := by
      intro w e he
      obtain ⟨_, -, -, hpresent⟩ := leafAt_eq_some.mp he
      exact hpresent
    have heq := hall b
    rw [translate_eq h, translate_eq h', if_pos hb, if_pos hb] at heq
    rw [← entryOf_congr hpage, ← entryOf_congr hpage]
    cases he : entryOf root v b with
    | none =>
      rw [he] at heq
      exact Option.map_eq_none_iff.mp heq
    | some e =>
      rw [he, Option.map_some, Option.map_eq_some_iff] at heq
      obtain ⟨e', he', hsame⟩ := heq
      simp only [Translated.mk.injEq] at hsame
      have h1 := hpresent he
      have h2 := hpresent he'
      rw [he', Option.some_inj]
      cases e
      cases e'
      simp only [Page.mk.injEq] at hsame h1 h2 ⊢
      exact ⟨h2.trans h1.symm, hsame.2.2, hsame.2.1, by omega⟩
  · intro hall a
    rw [translate_eq h, translate_eq h', hall a]

end Loop

/-! ### The call with its locks -/

/-- The kernel, and which assets are locked. -/
structure Locked where
  kernel : Kernel
  held : AssetPtr → Bool

namespace Locked

/-- `lock`: it waits while the lock is held. -/
def lock (s : Locked) (a : AssetPtr) : Option Locked :=
  if s.held a then none else some { s with held := Function.update s.held a true }

def release (s : Locked) (a : AssetPtr) : Locked := { s with held := Function.update s.held a false }

/-- `allocate_asset`: the new asset is locked, the table is changed under the lock
of the space. -/
def allocateAsset (s : Locked) (space : SpacePtr) (kind : AssetKind) : Option Locked :=
  (s.lock s.kernel.nextPtr).bind fun s => (s.lock space).map fun s =>
    { s with kernel := s.kernel.allocateAsset space kind }.release space

/-- `_asset_remove`. The lock of an asset that is deleted goes with it. -/
def assetRemove (s : Locked) (space : SpacePtr) (handle : ℕ) : Option Locked :=
  (s.lock space).bind fun s => (s.kernel.assetRemove space handle).map fun kernel =>
    { s with kernel }.release space

/-- `Space::create_mapping`, of a memory. -/
def createMapping (s : Locked) (space : SpacePtr) (start stop : ℕ) (physicalMem : AssetRef)
    (memory : AssetPtr) (size addr : ℕ) (writable executable : Bool) :
    Option (Except String ℕ × Locked) :=
  (s.lock memory).bind fun s =>
  let handle := (s.kernel.tables space).allocUid + 1
  let ptr := s.kernel.nextPtr
  ({ s with kernel := s.kernel.own memory }.allocateAsset space
    (.mapping start stop physicalMem writable executable)).bind fun s =>
  if stop ≤ start then
    some (.error "asset_create_mapping: start must be less than end", (s.release ptr).release memory)
  else if s.kernel.kernelVirtualBase ≤ start then
    some (.error "asset_create_mapping: start must be less than kernel virtual base",
      (s.release ptr).release memory)
  else
    match s.kernel.vm.map (s.kernel.root space) (Range.fromBeginLen start (stop - start))
        (Range.fromBeginLen addr size) { writeable := writable, user := true } with
    | (.error _, vm) =>
      (({ s with kernel := { s.kernel with vm } }.release ptr).assetRemove space handle).map fun s : Locked =>
        (.error "unable to map physical memory", s.release memory)
    | (.ok (), vm) =>
      some (.ok handle, ({ s with kernel := { s.kernel with vm } }.release ptr).release memory)

variable {s s' : Locked} {a : AssetPtr}

theorem lock_some (h : s.lock a = some s') :
    s.held a = false ∧ s' = { s with held := Function.update s.held a true } := by
  unfold lock at h
  split at h
  · cases h
  · rename_i hfree
    exact ⟨Bool.eq_false_iff.mpr hfree, (Option.some.inj h).symm⟩

/-- A free lock that is released is as it was. -/
theorem update_free {held : AssetPtr → Bool} (h : held a = false) : Function.update held a false = held := by
  rw [← h, Function.update_eq_self]

theorem allocateAsset_some {space : SpacePtr} {kind : AssetKind} (h : s.allocateAsset space kind = some s') :
    s'.kernel = s.kernel.allocateAsset space kind ∧
      s'.held = Function.update s.held s.kernel.nextPtr true := by
  unfold allocateAsset at h
  obtain ⟨s₁, h₁, h⟩ := Option.bind_eq_some_iff.mp h
  obtain ⟨s₂, h₂, rfl⟩ := Option.map_eq_some_iff.mp h
  obtain ⟨-, rfl⟩ := lock_some h₁
  obtain ⟨hspace, rfl⟩ := lock_some h₂
  refine ⟨rfl, ?_⟩
  unfold release
  dsimp only
  rw [Function.update_idem, update_free hspace]

theorem assetRemove_some {space : SpacePtr} {handle : ℕ} (h : s.assetRemove space handle = some s') :
    s.kernel.assetRemove space handle = some s'.kernel ∧ s'.held = s.held := by
  unfold assetRemove at h
  obtain ⟨s₁, h₁, h⟩ := Option.bind_eq_some_iff.mp h
  obtain ⟨kernel, h₂, rfl⟩ := Option.map_eq_some_iff.mp h
  obtain ⟨hspace, rfl⟩ := lock_some h₁
  refine ⟨h₂, ?_⟩
  unfold release
  dsimp only
  rw [Function.update_idem, update_free hspace]

/-- The locks that are taken are released, at every exit; besides them the call
is `Kernel.createMapping`. -/
theorem createMapping_kernel {space : SpacePtr} {start stop : ℕ} {physicalMem : AssetRef}
    {memory : AssetPtr} {size addr : ℕ} {writable executable : Bool} {res : Except String ℕ}
    (hfresh : s.held s.kernel.nextPtr = false) (hne : memory ≠ s.kernel.nextPtr)
    (h : s.createMapping space start stop physicalMem memory size addr writable executable = some (res, s')) :
    s.kernel.createMapping space start stop physicalMem memory size addr writable executable =
      some (res, s'.kernel) ∧ s'.held = s.held := by
  unfold createMapping at h
  obtain ⟨s₁, h₁, h⟩ := Option.bind_eq_some_iff.mp h
  obtain ⟨hmemory, rfl⟩ := lock_some h₁
  dsimp only at h
  obtain ⟨s₂, h₂, h⟩ := Option.bind_eq_some_iff.mp h
  obtain ⟨hkernel, hheld⟩ := allocateAsset_some h₂
  have hnext : (s.kernel.own memory).nextPtr = s.kernel.nextPtr := rfl
  have hlocks : ∀ t : Locked, t.held = s₂.held →
      ((t.release s.kernel.nextPtr).release memory).held = s.held := by
    intro t ht
    unfold release
    dsimp only
    rw [ht, hheld]
    dsimp only
    rw [hnext, Function.update_idem, Function.update_comm hne, Function.update_idem, update_free]
    · exact update_free hfresh
    · rw [Function.update_of_ne hne, hmemory]
  unfold Kernel.createMapping
  dsimp only
  rw [← hkernel]
  split at h
  · rename_i hempty
    simp only [Option.some_inj, Prod.mk.injEq] at h
    obtain ⟨rfl, rfl⟩ := h
    rw [if_pos hempty]
    exact ⟨rfl, hlocks s₂ rfl⟩
  · rename_i hempty
    rw [if_neg hempty]
    split at h
    · rename_i hbase
      simp only [Option.some_inj, Prod.mk.injEq] at h
      obtain ⟨rfl, rfl⟩ := h
      rw [if_pos hbase]
      exact ⟨rfl, hlocks s₂ rfl⟩
    · rename_i hbase
      rw [if_neg hbase]
      cases hmap : s₂.kernel.vm.map (s₂.kernel.root space) (Range.fromBeginLen start (stop - start))
          (Range.fromBeginLen addr size) { writeable := writable, user := true } with
      | mk res₁ vm =>
      rw [hmap] at h
      cases res₁ with
      | error e =>
        obtain ⟨s₃, h₃, heq⟩ := Option.map_eq_some_iff.mp h
        obtain ⟨hremove, hheld₃⟩ := assetRemove_some h₃
        simp only [Prod.mk.injEq] at heq
        obtain ⟨rfl, rfl⟩ := heq
        refine ⟨?_, ?_⟩
        · dsimp only
          exact Option.map_eq_some_iff.mpr ⟨s₃.kernel, hremove, rfl⟩
        · rw [← hlocks s₂ rfl]
          unfold release at hheld₃ ⊢
          dsimp only at hheld₃ ⊢
          rw [hheld₃]
      | ok u =>
        simp only [Option.some_inj, Prod.mk.injEq] at h
        obtain ⟨rfl, rfl⟩ := h
        exact ⟨rfl, hlocks { s₂ with kernel := { s₂.kernel with vm } } rfl⟩

end Locked

/-! ### What a failed call leaves -/

section Failure

variable {space : SpacePtr} {start stop : ℕ} {physicalMem : AssetRef} {memory a : AssetPtr}
  {size addr n depth : ℕ} {writable executable : Bool}

/-- A reference that is not the last one is dropped. -/
theorem deref_counted {s : Kernel} {k : AssetKind} (hx : s.heap a = some ⟨n + 2, k⟩) :
    s.deref (depth + 1) a = some (s.setAsset a (some ⟨n + 1, k⟩)) := by
  unfold Kernel.deref
  rw [hx]
  dsimp only
  rw [if_neg (by omega), if_pos (by omega)]
  rfl

/-- The new mapping is removed again, and with it its reference to the memory. -/
theorem assetRemove_mapping {s s' : Kernel} {k : AssetKind} {vm : Vmm}
    (hasset : physicalMem.asset = some memory) (hmem : s.heap memory = some ⟨n + 1, k⟩)
    (hfresh : s.heap s.nextPtr = none)
    (h : { (s.own memory).allocateAsset space (.mapping start stop physicalMem writable executable) with
      vm }.assetRemove space ((s.tables space).allocUid + 1) = some s') :
    s'.vm = vm ∧ (s'.tables space).assets = (s.tables space).assets ∧ s'.heap memory = s.heap memory := by
  have hne : memory ≠ s.nextPtr := by
    rintro rfl
    rw [hfresh] at hmem
    cases hmem
  have htable : ((s.own memory).allocateAsset space
      (.mapping start stop physicalMem writable executable)).tables space =
      (s.tables space).insertNew ⟨some s.nextPtr, 0⟩ (Option.some_ne_none _) :=
    Function.update_self _ _ _
  have hnone : (s.tables space).assets ((s.tables space).allocUid + 1) = none :=
    AssetTable.assetAt_eq_none.mp (AssetTable.assetAt_of_lt (Nat.lt_succ_self _))
  have hfind : (((s.own memory).allocateAsset space
      (.mapping start stop physicalMem writable executable)).tables space).assets
      ((s.tables space).allocUid + 1) = some ⟨some s.nextPtr, (s.tables space).allocUid + 1⟩ := by
    rw [htable]
    exact Function.update_self _ _ _
  unfold Kernel.assetRemove at h
  dsimp only at h
  rw [hfind] at h
  dsimp only at h
  generalize hs₁ : ({ (s.own memory).allocateAsset space
    (.mapping start stop physicalMem writable executable) with vm } : Kernel).setTable space _ = s₁ at h
  have hnew : s₁.heap s.nextPtr = some ⟨1, .mapping start stop physicalMem writable executable⟩ := by
    rw [← hs₁]
    exact Kernel.heap_allocateAsset (s.own memory) space _
  have hold : s₁.heap memory = some ⟨n + 2, k⟩ := by
    rw [← hs₁]
    refine (Kernel.heap_allocateAsset_of_ne (s.own memory) space _ hne).trans ?_
    refine (Function.update_self _ _ _).trans ?_
    rw [hmem]
    rfl
  have hnext : s₁.nextPtr = s.nextPtr + 1 := by
    rw [← hs₁]
    rfl
  rw [Kernel.deref_mapping hnew, hasset, hnext] at h
  dsimp only at h
  rw [deref_counted ((Function.update_of_ne hne _ _).trans hold), Option.some_inj] at h
  subst h
  refine ⟨?_, ?_, ?_⟩
  · rw [← hs₁]
    rfl
  · rw [← hs₁]
    change ((Function.update _ space _ : Spaces) space).assets = _
    rw [Function.update_self, htable]
    change Function.update (Function.update _ _ _) _ _ = _
    rw [Function.update_idem, ← hnone, Function.update_eq_self]
  · refine (Function.update_self _ _ _).trans hmem.symm

/-- A request of a mapping: the memory exists, and the tables of the space are in
a state that can be reached. -/
structure Requested (s : Locked) (space : SpacePtr) (physicalMem : AssetRef) (memory : AssetPtr)
    (size addr : ℕ) : Prop where
  tables : TableState (s.kernel.root space) s.kernel.vm
  asset : physicalMem.asset = some memory
  memory : ∃ n allocated, s.kernel.heap memory = some ⟨n + 1, .memory size addr allocated⟩
  fresh : s.kernel.heap s.kernel.nextPtr = none
  unlocked : s.held s.kernel.nextPtr = false
  size_lt : size < 2 ^ 64
  addr_lt : addr < 2 ^ 64

/-- The call has changed nothing of the space, of the memory and of the locks. -/
structure NoTrace (space : SpacePtr) (memory : AssetPtr) (s s' : Locked) : Prop where
  assets : (s'.kernel.tables space).assets = (s.kernel.tables space).assets
  translation : ∀ a, translate s'.kernel.vm.frames (s.kernel.root space) a =
    translate s.kernel.vm.frames (s.kernel.root space) a
  count : (s'.kernel.heap memory).map Asset.refCount = (s.kernel.heap memory).map Asset.refCount
  locks : s'.held = s.held

/-- The range passes the checks of `create_mapping`, and nothing is mapped before
the call fails that was not mapped so already. -/
def LeavesNothing (s : Kernel) (space : SpacePtr) (start stop size addr : ℕ) (writable : Bool) : Prop :=
  start < stop ∧ start < s.kernelVirtualBase ∧
    (stop - start ≠ size ∨ (stop - start) % 4096 ≠ 0 ∨
      StopsClean (s.root space) start addr { writeable := writable, user := true } s.vm
        ((stop - start) / 4096) 0)

/-- The tables after a call of `map` that fails, compared with those before it. -/
theorem map_error_iff {root : ℕ} {v v' : Vmm} {flags : PageFlags} {e : String} (h : SoundTables root v)
    (hstop : stop < 2 ^ 64) (hsize : size < 2 ^ 64) (haddr : addr < 2 ^ 64)
    (hmap : v.map root (Range.fromBeginLen start (stop - start)) (Range.fromBeginLen addr size) flags =
      (.error e, v')) (hlt : start < stop) :
    (∀ a, translate v'.frames root a = translate v.frames root a) ↔
      stop - start ≠ size ∨ (stop - start) % 4096 ≠ 0 ∨
        StopsClean root start addr flags v ((stop - start) / 4096) 0 := by
  obtain ⟨p₀, hT⟩ := soundTables_iff.mp h
  have hvlen : (Range.fromBeginLen start (stop - start)).len = stop - start :=
    Range.len_fromBeginLen (by omega)
  have hplen : (Range.fromBeginLen addr size).len = size := Range.len_fromBeginLen hsize
  have hstart : (Range.fromBeginLen start (stop - start)).start = start := Nat.mod_eq_of_lt (by omega)
  have hbegin : (Range.fromBeginLen addr size).start = addr := Nat.mod_eq_of_lt haddr
  unfold Vmm.map at hmap
  rw [hvlen, hplen, hstart, hbegin] at hmap
  split at hmap
  · rename_i hlen
    obtain ⟨-, rfl⟩ := Prod.mk.inj hmap
    exact ⟨fun _ => .inl hlen, fun _ _ => rfl⟩
  · rename_i hlen
    split at hmap
    · rename_i haligned
      obtain ⟨-, rfl⟩ := Prod.mk.inj hmap
      exact ⟨fun _ => .inr (.inl haligned), fun _ _ => rfl⟩
    · rename_i haligned
      rw [translate_eq_iff hT (mapPages_spec hT hmap).1, mapPages_error_iff hT hmap]
      exact ⟨fun hclean => .inr (.inr hclean),
        fun hc => (hc.resolve_left hlen).resolve_left haligned⟩

/-- An asset that stays in the table. -/
theorem not_noTrace_of_kept {s s' : Locked} {kind : AssetKind} {t : Kernel}
    (hkernel : s'.kernel = t.allocateAsset space kind) (htables : t.tables = s.kernel.tables) :
    ¬ NoTrace space memory s s' := by
  intro h
  have hnew : (s'.kernel.tables space).assetAt ((s.kernel.tables space).allocUid + 1) = some t.nextPtr := by
    rw [hkernel, ← htables]
    exact Kernel.assetAt_allocateAsset t space kind
  have hold := (s.kernel.tables space).assetAt_of_lt (h := (s.kernel.tables space).allocUid + 1)
    (Nat.lt_succ_self _)
  unfold AssetTable.assetAt at hnew hold
  rw [h.assets, hold] at hnew
  cases hnew

/-- **A failed call** leaves no trace just if the range passes the checks, and all
that was mapped before it failed was mapped so already. -/
theorem failed_mapping_iff {s s' : Locked} {e : String} (h : Requested s space physicalMem memory size addr)
    (hstop : stop < 2 ^ 64)
    (hcall : s.createMapping space start stop physicalMem memory size addr writable executable =
      some (.error e, s')) :
    NoTrace space memory s s' ↔ LeavesNothing s.kernel space start stop size addr writable := by
  obtain ⟨n, allocated, hmem⟩ := h.memory
  have hne : memory ≠ s.kernel.nextPtr := by
    rintro rfl
    rw [h.fresh] at hmem
    cases hmem
  obtain ⟨hkernel, hheld⟩ := Locked.createMapping_kernel h.unlocked hne hcall
  unfold LeavesNothing
  unfold Kernel.createMapping at hkernel
  dsimp only at hkernel
  split at hkernel
  · rename_i hempty
    simp only [Option.some_inj, Prod.mk.injEq] at hkernel
    exact ⟨fun hno => absurd hno (not_noTrace_of_kept hkernel.2.symm rfl), fun hc => by omega⟩
  · rename_i hempty
    split at hkernel
    · rename_i hbase
      simp only [Option.some_inj, Prod.mk.injEq] at hkernel
      refine ⟨fun hno => absurd hno (not_noTrace_of_kept hkernel.2.symm rfl), fun hc => ?_⟩
      exact absurd hbase (Nat.not_le_of_lt hc.2.1)
    · rename_i hbase
      split at hkernel
      · rename_i msg vm hmap
        obtain ⟨t, hremove, heq⟩ := Option.map_eq_some_iff.mp hkernel
        obtain rfl : t = s'.kernel := (Prod.mk.inj heq).2
        obtain ⟨hvm, hassets, hheap⟩ := assetRemove_mapping h.asset hmem h.fresh hremove
        have hiff := map_error_iff h.tables.sound hstop h.size_lt h.addr_lt hmap (Nat.lt_of_not_le hempty)
        refine ⟨fun hno => ⟨Nat.lt_of_not_le hempty, Nat.lt_of_not_le hbase, hiff.mp ?_⟩, fun hc => ?_⟩
        · rw [← hvm]
          exact hno.translation
        · refine ⟨hassets, ?_, by rw [hheap], hheld⟩
          rw [hvm]
          exact hiff.mpr hc.2.2
      · simp only [Option.some_inj, Prod.mk.injEq] at hkernel
        cases hkernel.1

end Failure

/-! ### A range above the base of the kernel -/

/-- One space with a memory of one page, and no lock held. -/
def ownedUnlocked : Locked :=
  ⟨Kernel.oneSpace.allocateAsset 0 (.memory 4096 0x109000 false), fun _ => false⟩

theorem requested_ownedUnlocked : Requested ownedUnlocked 0 ⟨some 1, 1⟩ 1 4096 0x109000 where
  tables := .start start_smallVmm
  asset := rfl
  memory := ⟨0, false, rfl⟩
  fresh := rfl
  unlocked := rfl
  size_lt := by decide
  addr_lt := by decide

/-- The call is refused, and the mapping stays in the table. -/
theorem failed_mapping_kept : Requested ownedUnlocked 0 ⟨some 1, 1⟩ 1 4096 0x109000 ∧
    ∃ e s', ownedUnlocked.createMapping 0 0xFFFF800000000000 0xFFFF800000001000 ⟨some 1, 1⟩ 1 4096 0x109000
        true false = some (.error e, s') ∧ ¬ NoTrace 0 1 ownedUnlocked s' :=
  ⟨requested_ownedUnlocked, _, _, rfl, not_noTrace_of_kept rfl rfl⟩

theorem failed_mapping_iff_refused :
    ∃ e s', ownedUnlocked.createMapping 0 0xFFFF800000000000 0xFFFF800000001000 ⟨some 1, 1⟩ 1 4096 0x109000
        true false = some (.error e, s') ∧
      (NoTrace 0 1 ownedUnlocked s' ↔
        LeavesNothing ownedUnlocked.kernel 0 0xFFFF800000000000 0xFFFF800000001000 4096 0x109000 true) :=
  ⟨_, _, rfl, failed_mapping_iff requested_ownedUnlocked (by decide) rfl⟩

end WingOS
