/-
# The tables shared with the kernel

`VmmSpace::create` copies the upper entries of the kernel's root, from index
255 on, so that every space has the kernel's tables below them. `create_mapping`
keeps user mappings out of there by one test, of the start address, against the
base of the kernel's image. The direct map lies below that base, and the end of
the range is not looked at, so a mapping can change the kernel's tables
(`kernel_table_changed`).

It changes none if no page of the range has an upper index (`OutsideKernel`,
`kernel_tables_kept`). The frames are split into the kernel's tables and the
tables of the spaces, each with its level (`Split`); `map` stays on its side of
the split, since the frames it takes were free.

Key definitions: `Vmm.create`, `Shared`, `Split`, `SpaceOp`, `OutsideKernel`,
`KernelKept`.
Key theorems: `split_mapPage`, `split_create`, `kernel_tables_kept`,
`kernel_table_changed`.
-/
import WingOS.PageTableSpec
import WingOS.StaleMappings

namespace WingOS

open PageRange

/-- `VmmSpace::create`. -/
def Vmm.create (kernelRoot : ℕ) (empty : Bool) (v : Vmm) : Except String ℕ × Vmm :=
  match v.pmm.allocate 1 true with
  | (.error e, pmm) => (.error e, { v with pmm })
  | (.ok root, pmm) =>
    (.ok root, { v with
      pmm
      frames := Function.update v.frames root fun i =>
        if empty = false ∧ 255 ≤ i then v.frames kernelRoot i else {} })

/-- The tables below the upper entries of a root. -/
def Shared (frames : Frames) (root x : ℕ) : Prop :=
  ∃ (i : Fin 512) (p : List (Fin 512)), 255 ≤ (i : ℕ) ∧ p.length ≤ 2 ∧
    tableAt frames root (i :: p) = some x

/-- The frames `K` of the kernel, and the tables of the spaces with their level
`lab`, 4 for a root. -/
structure Split (K : ℕ → Prop) (upper : ℕ → Page) (lab : ℕ → Option ℕ) (v : Vmm) : Prop where
  layout : Layout v.pmm.windows
  aligned : ∀ w ∈ v.pmm.windows, w.range.start % 4096 = 0
  kernel : ∀ x, K x → v.pmm.NotFree x
  used : ∀ {x l}, lab x = some l → v.pmm.NotFree x ∧ ¬ K x
  upper : ∀ {x}, lab x = some 4 → ∀ i, 255 ≤ i → i < 512 → v.frames x i = upper i
  below : ∀ {x l}, lab x = some (l + 2) → ∀ i < 512, (l = 2 → i < 255) →
    (v.frames x i).present = true → lab ((v.frames x i).address * 4096) = some (l + 1)

/-- The tables stay tables, and the kernel's frames are as they were. -/
structure Kept (K : ℕ → Prop) (lab lab' : ℕ → Option ℕ) (v v' : Vmm) : Prop where
  extends_lab : ∀ {x l}, lab x = some l → lab' x = some l
  frames : ∀ x, K x → v'.frames x = v.frames x

section Split

variable {K : ℕ → Prop} {upper : ℕ → Page} {lab lab' lab'' : ℕ → Option ℕ} {v v' v'' : Vmm}
  {t i level : ℕ} {page : Page}

theorem Kept.refl (v : Vmm) : Kept K lab lab v v := ⟨id, fun _ _ => rfl⟩

theorem Kept.trans (h : Kept K lab lab' v v') (h' : Kept K lab' lab'' v' v'') :
    Kept K lab lab'' v v'' :=
  ⟨fun hx => h'.extends_lab (h.extends_lab hx), fun x hx => (h'.frames x hx).trans (h.frames x hx)⟩

theorem frames_setEntry (v : Vmm) (t i : ℕ) (page : Page) (x j : ℕ) :
    (v.setEntry t i page).frames x j = if x = t ∧ j = i then page else v.frames x j := rfl

/-- An entry of a table of a space is written. -/
theorem split_setEntry (h : Split K upper lab v) (ht : lab t = some (level + 1))
    (hupper : level = 3 → i < 255)
    (hchild : ∀ l, level = l + 1 → page.present = true → lab (page.address * 4096) = some (l + 1)) :
    Split K upper lab (v.setEntry t i page) ∧ Kept K lab lab v (v.setEntry t i page) := by
  refine ⟨⟨h.layout, h.aligned, h.kernel, h.used, ?_, ?_⟩, id, ?_⟩
  · intro x hx j hj hj'
    rw [frames_setEntry, if_neg]
    · exact h.upper hx j hj hj'
    · intro ⟨hxt, hji⟩
      rw [hxt, ht, Option.some_inj] at hx
      have := hupper (by omega)
      omega
  · intro x l hx j hj hl hpresent
    rw [frames_setEntry] at hpresent ⊢
    split at hpresent
    · rename_i hxj
      rw [hxj.1, ht, Option.some_inj] at hx
      rw [if_pos hxj]
      exact hchild l (by omega) hpresent
    · rename_i hxj
      rw [if_neg hxj]
      exact h.below hx j hj hl hpresent
  · intro x hx
    funext j
    rw [frames_setEntry, if_neg]
    intro ⟨hxt, _⟩
    rw [hxt] at hx
    exact (h.used ht).2 hx

/-- A frame that is taken is nobody's. -/
theorem Split.fresh (h : Split K upper lab v) {c : ℕ} {lower : Bool} {pmm : Pmm}
    (ha : v.pmm.allocate 1 lower = (.ok c, pmm)) : ¬ v.pmm.NotFree c ∧ c % 4096 = 0 := by
  obtain ⟨-, w, hw, k, hrun, -, -⟩ := Pmm.allocate_ok h.layout ha
  have h1 := h.aligned w hw
  have h2 := hrun.addr_eq
  unfold Window.page at h2
  refine ⟨Pmm.free_allocated h.layout h.aligned ha ?_ (by omega), by omega⟩
  unfold Covers
  dsimp only
  omega

/-- A frame is taken for a table, with the entries `entries`. -/
theorem split_newTable (h : Split K upper lab v) {c : ℕ} {lower : Bool} {pmm : Pmm}
    (ha : v.pmm.allocate 1 lower = (.ok c, pmm)) {l : ℕ} {entries : ℕ → Page}
    (hupper : l = 4 → ∀ i, 255 ≤ i → i < 512 → entries i = upper i)
    (hbelow : ∀ i < 512, (l = 4 → i < 255) → (entries i).present = false) :
    Split K upper (Function.update lab c (some l)) { v with pmm, frames := Function.update v.frames c entries } ∧
      Kept K lab (Function.update lab c (some l)) v
        { v with pmm, frames := Function.update v.frames c entries } := by
  have hfree := (h.fresh ha).1
  have hgrows := Pmm.grows_allocate h.layout ha
  have hc : ∀ {x l'}, lab x = some l' → x ≠ c := by
    intro x l' hx hxc
    exact hfree (hxc ▸ (h.used hx).1)
  have hK : ∀ x, K x → x ≠ c := fun x hx hxc => hfree (hxc ▸ h.kernel x hx)
  have hlab : ∀ {x l'}, lab x = some l' → Function.update lab c (some l) x = some l' := by
    intro x l' hx
    rw [Function.update_of_ne (hc hx)]
    exact hx
  refine ⟨⟨?_, ?_, fun x hx => hgrows.notFree (h.kernel x hx), ?_, ?_, ?_⟩, hlab, ?_⟩
  · change Layout pmm.windows
    rw [hgrows.1.1]
    exact h.layout
  · change ∀ w ∈ pmm.windows, _
    rw [hgrows.1.1]
    exact h.aligned
  · intro x l' hx
    rcases eq_or_ne x c with rfl | hne
    · refine ⟨Pmm.notFree_allocated h.layout ha ?_, fun hx => hK x hx rfl⟩
      unfold Covers
      dsimp only
      omega
    · rw [Function.update_of_ne hne] at hx
      exact ⟨hgrows.notFree (h.used hx).1, (h.used hx).2⟩
  · intro x hx i hi hi'
    change Function.update v.frames c entries x i = _
    rcases eq_or_ne x c with rfl | hne
    · rw [Function.update_self, Option.some_inj] at hx
      rw [Function.update_self]
      exact hupper hx i hi hi'
    · rw [Function.update_of_ne hne] at hx ⊢
      exact h.upper hx i hi hi'
  · intro x l' hx i hi hl hpresent
    change (Function.update v.frames c entries x i).present = true at hpresent
    change Function.update lab c (some l) ((Function.update v.frames c entries x i).address * 4096) = _
    rcases eq_or_ne x c with rfl | hne
    · rw [Function.update_self, Option.some_inj] at hx
      rw [Function.update_self, hbelow i hi fun hl4 => hl (by omega)] at hpresent
      cases hpresent
    · rw [Function.update_of_ne hne] at hx hpresent ⊢
      exact hlab (h.below hx i hi hl hpresent)
  · intro x hx
    exact Function.update_of_ne (hK x hx) _ _

theorem Split.congr (h : Split K upper lab v) (hpmm : v'.pmm = v.pmm) (hframes : v'.frames = v.frames) :
    Split K upper lab v' := by
  refine ⟨?_, ?_, ?_, ?_, ?_, ?_⟩
  · rw [hpmm]
    exact h.layout
  · rw [hpmm]
    exact h.aligned
  · rw [hpmm]
    exact h.kernel
  · rw [hpmm]
    exact h.used
  · rw [hframes]
    exact h.upper
  · rw [hframes]
    exact h.below

/-- An allocation that fails. -/
theorem split_pmm (h : Split K upper lab v) {lower : Bool} {e : String} {pmm : Pmm}
    (ha : v.pmm.allocate 1 lower = (.error e, pmm)) : Split K upper lab { v with pmm } := by
  have hgrows := Pmm.grows_allocate h.layout ha
  refine ⟨?_, ?_, fun x hx => hgrows.notFree (h.kernel x hx),
    fun hx => ⟨hgrows.notFree (h.used hx).1, (h.used hx).2⟩, h.upper, h.below⟩
  · change Layout pmm.windows
    rw [hgrows.1.1]
    exact h.layout
  · change ∀ w ∈ pmm.windows, _
    rw [hgrows.1.1]
    exact h.aligned

/-- **`PageTable::map`** stays on its side of the split. -/
theorem split_mapPage {vaddr : ℕ} (hidx : tableIndex 4 vaddr < 255) :
    ∀ {level t : ℕ} {lab : ℕ → Option ℕ} {v v' : Vmm} {res : Except String Unit}, level ≤ 3 →
    Split K upper lab v → lab t = some (level + 1) →
    Vmm.mapPage vaddr page (level + 1) t v = (res, v') →
    ∃ lab', Split K upper lab' v' ∧ Kept K lab lab' v v'
  | 0, t, lab, v, v', res, _, h, ht, hmap => by
    unfold Vmm.mapPage at hmap
    obtain ⟨-, rfl⟩ := Prod.mk.inj hmap
    have hstep : Split K upper lab (v.setEntry t (tableIndex 1 vaddr) page) ∧
        Kept K lab lab v (v.setEntry t (tableIndex 1 vaddr) page) := 
      split_setEntry h ht (fun hl => absurd hl (by decide)) fun l hl => absurd hl (Nat.succ_ne_zero l).symm
    exact ⟨lab, hstep.1.congr rfl rfl, hstep.2.extends_lab, hstep.2.frames⟩
  | level + 1, t, lab, v, v', res, hlevel, h, ht, hmap => by
    have hupper : level + 1 = 3 → tableIndex (level + 2) vaddr < 255 := by
      intro hl
      obtain rfl : level = 2 := by omega
      exact hidx
    have hlt := tableIndex_lt (level + 2) vaddr
    unfold Vmm.mapPage at hmap
    dsimp only at hmap
    split at hmap
    · split at hmap
      · rename_i e pmm ha
        obtain ⟨-, rfl⟩ := Prod.mk.inj hmap
        exact ⟨lab, split_pmm h ha, id, fun _ _ => rfl⟩
      · -- a new table, and the entry that leads to it
        rename_i c pmm ha
        have hmod := (h.fresh ha).2
        have haddr : c / 4096 * 4096 = c := by omega
        obtain ⟨hsplit, hkept⟩ : Split K upper (Function.update lab c (some (level + 1)))
            { v with pmm, frames := Function.update v.frames c fun _ => {} } ∧ _ :=
          split_newTable h ha (fun hl => by omega) fun _ _ _ => rfl
        have hclear : (Vmm.clearTable { v with pmm } c).frames =
            Function.update v.frames c fun _ => {} := by
          funext x j
          unfold Vmm.clearTable
          dsimp only
          rw [Function.update_apply]
          split
          · rfl
          · rfl
        have hsplit₁ : Split K upper (Function.update lab c (some (level + 1)))
            (Vmm.clearTable { v with pmm } c) := hsplit.congr rfl hclear
        have hlabel : Function.update lab c (some (level + 1)) (c / 4096 * 4096) = some (level + 1) := by
          rw [haddr, Function.update_self]
        obtain ⟨hsplit₂, hkept₂⟩ : Split K upper (Function.update lab c (some (level + 1)))
            ((Vmm.clearTable { v with pmm } c).setEntry t (tableIndex (level + 2) vaddr)
              ⟨true, page.writeable, page.user, c / 4096⟩) ∧ _ :=
          split_setEntry hsplit₁ (hkept.extends_lab ht) hupper fun l hl _ => by
            obtain rfl : level = l := by omega
            exact hlabel
        have hentry : ((Vmm.clearTable { v with pmm } c).install t (tableIndex (level + 2) vaddr)
            ⟨true, page.writeable, page.user, c / 4096⟩).frames t (tableIndex (level + 2) vaddr) =
            ⟨true, page.writeable, page.user, c / 4096⟩ := if_pos ⟨rfl, rfl⟩
        have hsplit₃ : Split K upper (Function.update lab c (some (level + 1)))
            ((Vmm.clearTable { v with pmm } c).install t (tableIndex (level + 2) vaddr)
              ⟨true, page.writeable, page.user, c / 4096⟩) := hsplit₂.congr rfl rfl
        rw [hentry] at hmap
        obtain ⟨lab', hsplit', hkept'⟩ := split_mapPage hidx (by omega) hsplit₃ hlabel hmap
        refine ⟨lab', hsplit', fun hx => hkept'.extends_lab (hkept.extends_lab hx), fun x hx => ?_⟩
        refine (hkept'.frames x hx).trans ((hkept₂.frames x hx).trans ?_)
        rw [hclear]
        exact hkept.frames x hx
    · rename_i hpresent
      have hchild := h.below ht (tableIndex (level + 2) vaddr) hlt (fun hl => hupper (by omega))
        ((Bool.not_eq_false _).mp hpresent)
      rw [show ∀ e : Page, (v.setEntry t (tableIndex (level + 2) vaddr) e).frames t
        (tableIndex (level + 2) vaddr) = e from fun e => if_pos ⟨rfl, rfl⟩] at hmap
      obtain ⟨hsplit₁, hkept₁⟩ : Split K upper lab (v.setEntry t (tableIndex (level + 2) vaddr)
          (widened (v.frames t (tableIndex (level + 2) vaddr)) page)) ∧ _ :=
        split_setEntry h ht hupper fun l hl _ => by
          obtain rfl : level = l := by omega
          exact hchild
      obtain ⟨lab', hsplit', hkept'⟩ := split_mapPage hidx (by omega) hsplit₁ hchild hmap
      exact ⟨lab', hsplit', hkept₁.trans hkept'⟩

theorem split_mapPages {root virtBegin physBegin : ℕ} {flags : PageFlags} :
    ∀ (n k : ℕ) {lab : ℕ → Option ℕ} {v v' : Vmm} {res : Except String Unit},
    (∀ j < k + n, k ≤ j → tableIndex 4 ((virtBegin + 4096 * j) % 2 ^ 64) < 255) →
    Split K upper lab v → lab root = some 4 →
    v.mapPages root virtBegin physBegin flags n k = (res, v') →
    ∃ lab', Split K upper lab' v' ∧ Kept K lab lab' v v'
  | 0, k, lab, v, v', res, _, h, _, hmap => by
    obtain ⟨-, rfl⟩ := Prod.mk.inj hmap
    exact ⟨lab, h, Kept.refl v⟩
  | n + 1, k, lab, v, v', res, hidx, h, hroot, hmap => by
    unfold Vmm.mapPages at hmap
    split at hmap
    · rename_i e v₁ hpage
      obtain ⟨-, rfl⟩ := Prod.mk.inj hmap
      exact split_mapPage (hidx k (by omega) (Nat.le_refl k)) (Nat.le_refl 3) h hroot hpage
    · rename_i v₁ hpage
      obtain ⟨lab₁, h₁, hkept₁⟩ :=
        split_mapPage (hidx k (by omega) (Nat.le_refl k)) (Nat.le_refl 3) h hroot hpage
      obtain ⟨lab', h', hkept'⟩ := split_mapPages n (k + 1)
        (fun j hj hk => hidx j (by omega) (by omega)) h₁ (hkept₁.extends_lab hroot) hmap
      exact ⟨lab', h', hkept₁.trans hkept'⟩

/-- **`VmmSpace::map`**, on pages with lower indices. -/
theorem split_map {root : ℕ} {virt phys : Range} {flags : PageFlags} {res : Except String Unit}
    (hidx : virt.len = phys.len → virt.len % 4096 = 0 →
      ∀ j < virt.len / 4096, tableIndex 4 ((virt.start + 4096 * j) % 2 ^ 64) < 255)
    (h : Split K upper lab v) (hroot : lab root = some 4)
    (hmap : v.map root virt phys flags = (res, v')) :
    ∃ lab', Split K upper lab' v' ∧ Kept K lab lab' v v' := by
  unfold Vmm.map at hmap
  split at hmap
  · obtain ⟨-, rfl⟩ := Prod.mk.inj hmap
    exact ⟨lab, h, Kept.refl v⟩
  · rename_i hlen
    split at hmap
    · obtain ⟨-, rfl⟩ := Prod.mk.inj hmap
      exact ⟨lab, h, Kept.refl v⟩
    · rename_i hmod
      refine split_mapPages _ _ (fun j hj _ => ?_) h hroot hmap
      exact hidx (not_not.mp hlen) (not_not.mp hmod) j (by omega)

/-- **`VmmSpace::create`**: a new root, with the upper entries of the kernel's. -/
theorem split_create {kernelRoot : ℕ} {res : Except String ℕ} (h : Split K upper lab v)
    (hkernel : ∀ i, 255 ≤ i → i < 512 → v.frames kernelRoot i = upper i)
    (hcreate : v.create kernelRoot false = (res, v')) :
    ∃ lab', Split K upper lab' v' ∧ Kept K lab lab' v v' ∧ ∀ root, res = .ok root → lab' root = some 4 := by
  unfold Vmm.create at hcreate
  split at hcreate
  · rename_i e pmm ha
    obtain ⟨rfl, rfl⟩ := Prod.mk.inj hcreate
    exact ⟨lab, split_pmm h ha, ⟨id, fun _ _ => rfl⟩, nofun⟩
  · rename_i root pmm ha
    obtain ⟨rfl, rfl⟩ := Prod.mk.inj hcreate
    obtain ⟨hsplit, hkept⟩ : Split K upper (Function.update lab root (some 4))
        { v with
          pmm
          frames := Function.update v.frames root fun i =>
            if false = false ∧ 255 ≤ i then v.frames kernelRoot i else {} } ∧ _ := by
      refine split_newTable h ha (fun _ i hi hi' => ?_) fun i _ hl => ?_
      · rw [if_pos ⟨rfl, hi⟩]
        exact hkernel i hi hi'
      · have := hl rfl
        rw [if_neg fun hc => by omega]
    refine ⟨_, hsplit, hkept, fun r hr => ?_⟩
    rw [← Except.ok.inj hr, Function.update_self]

end Split

/-! ### Calls -/

namespace Kernel

section Calls

variable {s s' : Kernel} {a memory : AssetPtr} {space : SpacePtr} {physicalMem : AssetRef}
  {start stop size addr : ℕ} {writable executable : Bool}

/-- A reference that is not the last one. -/
theorem deref_held (h : Refs (one a) s) {d : Holder} (hd : s.holds d = some a) {depth : ℕ}
    (hs : s.deref (depth + 1) a = some s') : Refs (fun _ => 0) s' ∧ s'.vm = s.vm ∧ s'.root = s.root := by
  obtain ⟨x, hx⟩ := Option.ne_none_iff_exists'.mp (h.live d a hd)
  obtain ⟨n, hn, hc⟩ := h.counted a x hx
  obtain ⟨m, rfl⟩ := hc.pos hd
  rw [one_self] at hn
  unfold deref at hs
  rw [hx] at hs
  dsimp only at hs
  rw [if_neg (by omega), if_pos (by omega), Option.some_inj] at hs
  rw [← hs]
  exact ⟨refs_dec h hx, rfl, rfl⟩

/-- What `create_mapping` does to the page tables: nothing, or a `map`. -/
theorem createMapping_vm (h : Refs (fun _ => 0) s) (hasset : physicalMem.asset = some memory)
    {allocated : Bool} (hmem : s.kindAt memory = some (.memory size addr allocated)) {k : ℕ}
    (hat : (s.tables space).assetAt k = some memory) {res : Except String ℕ}
    (hs : s.createMapping space start stop physicalMem memory size addr writable executable =
      some (res, s')) :
    Refs (fun _ => 0) s' ∧ s'.root = s.root ∧
      (s'.vm = s.vm ∨ start < s.kernelVirtualBase ∧
        ∃ r, s.vm.map (s.root space) (Range.fromBeginLen start (stop - start))
          (Range.fromBeginLen addr size) { writeable := writable, user := true } = (r, s'.vm)) := by
  have hrefs : Refs (fun _ => 0) ((s.own memory).allocateAsset space
      (.mapping start stop physicalMem writable executable)) := refs_allocateMapping h hasset hmem
  have hle : k ≤ (s.tables space).allocUid := by
    obtain ⟨r, hr, -⟩ := AssetTable.assetAt_eq_some.mp hat
    exact (s.tables space).le_allocUid hr
  unfold createMapping at hs
  dsimp only at hs
  split at hs
  · obtain ⟨-, rfl⟩ := Prod.mk.inj (Option.some.inj hs)
    exact ⟨hrefs, rfl, .inl rfl⟩
  · split at hs
    · obtain ⟨-, rfl⟩ := Prod.mk.inj (Option.some.inj hs)
      exact ⟨hrefs, rfl, .inl rfl⟩
    · rename_i hbase
      have hlow : start < s.kernelVirtualBase := Nat.lt_of_not_le hbase
      split at hs
      · -- the mapping is dropped; its memory is still in the table
        rename_i e vm hmap
        obtain ⟨s₁, hrem, heq⟩ := Option.map_eq_some_iff.mp hs
        obtain ⟨-, rfl⟩ := Prod.mk.inj heq
        obtain ⟨t, depth, hx, -, htvm, -, hone, hderef, hroot, htables⟩ := assetRemove_new hrefs hrem
        rw [deref_mapping hx, hasset] at hderef
        have hheld : (t.setAsset (s.own memory).nextPtr none).holds (.entry space k) = some memory :=
          (htables k hle).trans hat
        obtain ⟨hrefs', hvm, hroot'⟩ := deref_held (refs_dropMapping hone hx hasset) hheld hderef
        refine ⟨hrefs', hroot'.trans hroot, .inr ⟨hlow, .error e, ?_⟩⟩
        rw [hvm, show (t.setAsset (s.own memory).nextPtr none).vm = vm from htvm]
        exact hmap
      · rename_i vm hmap
        obtain ⟨-, rfl⟩ := Prod.mk.inj (Option.some.inj hs)
        exact ⟨hrefs.congr rfl rfl rfl, rfl, .inr ⟨hlow, _, hmap⟩⟩

end Calls
end Kernel

/-! ### Runs -/

/-- The kernel with the spaces that were made so far. -/
structure KernelSpaces where
  kernel : Kernel
  made : List SpacePtr

/-- `VmmSpace::create(false)` for a space, and the mapping-create call. -/
inductive SpaceOp
  | create (space : SpacePtr)
  | map (caller : SpacePtr) (target start stop physicalMem : UInt64) (writable executable : Bool)

/-- A result of `none` is a call that reaches `unreachable$`, or one on a space
that was not made. -/
def KernelSpaces.step (kernelRoot : ℕ) (s : KernelSpaces) : SpaceOp → Option KernelSpaces
  | .create space =>
    match s.kernel.vm.create kernelRoot false with
    | (.error _, vm) => some { s with kernel := { s.kernel with vm } }
    | (.ok root, vm) =>
      some ⟨{ s.kernel with vm, root := Function.update s.kernel.root space root }, space :: s.made⟩
  | .map caller target start stop physicalMem writable executable =>
    match s.kernel.targetSpace caller target.toNat with
    | .error _ => some s
    | .ok space =>
      if space ∈ s.made then
        (s.kernel.map caller target.toNat start.toNat stop.toNat physicalMem.toNat writable executable).map
          fun (_, kernel) => { s with kernel }
      else none

/-- No page of the range has an upper index, or the call is refused before it
comes to the page tables. -/
def OutsideKernel (s : KernelSpaces) : SpaceOp → Prop
  | .create _ => True
  | .map caller target start stop physicalMem _ _ =>
    ∀ space r a n size addr allocated, s.kernel.targetSpace caller target.toNat = .ok space →
      s.kernel.byHandle space physicalMem.toNat = .ok (r, a, ⟨n, .memory size addr allocated⟩) →
      start.toNat < stop.toNat → start.toNat < s.kernel.kernelVirtualBase →
      stop.toNat - start.toNat = (Range.fromBeginLen addr size).len →
      (stop.toNat - start.toNat) % 4096 = 0 →
      ∀ k < (stop.toNat - start.toNat) / 4096, tableIndex 4 ((start.toNat + 4096 * k) % 2 ^ 64) < 255

/-- The kernel's tables are in use, and no space was made yet. -/
structure KernelStart (kernelRoot : ℕ) (s : KernelSpaces) : Prop where
  created : ∃ context m p, SectionsDisjoint context ∧ Pmm.create context m = .ok p ∧
    p.Same s.kernel.vm.pmm
  root_marked : s.kernel.vm.pmm.NotFree kernelRoot
  tables_marked : ∀ x, Shared s.kernel.vm.frames kernelRoot x → s.kernel.vm.pmm.NotFree x
  refs : Refs (fun _ => 0) s.kernel
  base : mmapIoBase ≤ s.kernel.kernelVirtualBase
  made : s.made = []

/-- The tables below the upper entries are as they were, and so are these entries
in the root of every space. -/
structure KernelKept (kernelRoot : ℕ) (s s' : KernelSpaces) : Prop where
  tables : ∀ x, Shared s.kernel.vm.frames kernelRoot x →
    s'.kernel.vm.frames x = s.kernel.vm.frames x
  roots : ∀ space ∈ s'.made, ∀ i, 255 ≤ i → i < 512 →
    s'.kernel.vm.frames (s'.kernel.root space) i = s.kernel.vm.frames kernelRoot i

/-- The invariant, where `frames` are the tables at the start. -/
structure KernelSpaces.Inv (kernelRoot : ℕ) (frames : Frames) (s : KernelSpaces) : Prop where
  refs : Refs (fun _ => 0) s.kernel
  split : ∃ lab, Split (fun x => x = kernelRoot ∨ Shared frames kernelRoot x) (frames kernelRoot) lab
    s.kernel.vm ∧ ∀ space ∈ s.made, lab (s.kernel.root space) = some 4
  frames : ∀ x, x = kernelRoot ∨ Shared frames kernelRoot x → s.kernel.vm.frames x = frames x

section Runs

variable {kernelRoot : ℕ} {frames : Frames} {s s' : KernelSpaces}

theorem inv_kernelStart (h : KernelStart kernelRoot s) : s.Inv kernelRoot s.kernel.vm.frames := by
  obtain ⟨context, m, p, hsections, hcreate, hsame⟩ := h.created
  have hwindows : s.kernel.vm.pmm.windows = Pmm.windowsOf _ _ :=
    hsame.1.trans (Pmm.created hcreate).windows
  refine ⟨h.refs, ⟨fun _ => none, ⟨?_, ?_, ?_, nofun, nofun, nofun⟩, ?_⟩, fun _ _ => rfl⟩
  · rw [hwindows]
    exact Pmm.layout_windowsOf hsections _
  · rw [hwindows]
    exact fun w hw => Pmm.windowsOf_aligned hw
  · intro x hx
    rcases hx with hx | hx
    · exact hx ▸ h.root_marked
    · exact h.tables_marked x hx
  · rw [h.made]
    nofun

/-- The page tables have changed on the side of the spaces. -/
theorem KernelSpaces.Inv.of_kept {kernel : Kernel} (h : s.Inv kernelRoot frames)
    (hrefs : Refs (fun _ => 0) kernel) (hroot : kernel.root = s.kernel.root)
    {lab lab' : ℕ → Option ℕ}
    (hmade : ∀ space ∈ s.made, lab (s.kernel.root space) = some 4)
    (hsplit : Split (fun x => x = kernelRoot ∨ Shared frames kernelRoot x) (frames kernelRoot) lab' kernel.vm)
    (hkept : Kept (fun x => x = kernelRoot ∨ Shared frames kernelRoot x) lab lab' s.kernel.vm kernel.vm) :
    KernelSpaces.Inv kernelRoot frames { s with kernel } := by
  refine ⟨hrefs, ⟨lab', hsplit, fun space hs => ?_⟩, fun x hx => (hkept.frames x hx).trans (h.frames x hx)⟩
  change lab' (kernel.root space) = some 4
  rw [hroot]
  exact hkept.extends_lab (hmade space hs)

theorem inv_createSpace (h : s.Inv kernelRoot frames) {space : SpacePtr}
    (hs : s.step kernelRoot (.create space) = some s') : s'.Inv kernelRoot frames := by
  obtain ⟨lab, hsplit, hmade⟩ := h.split
  have hkernel : ∀ i, 255 ≤ i → i < 512 → s.kernel.vm.frames kernelRoot i = frames kernelRoot i :=
    fun i _ _ => congrFun (h.frames kernelRoot (.inl rfl)) i
  unfold KernelSpaces.step at hs
  dsimp only at hs
  split at hs
  · rename_i e vm hcreate
    obtain ⟨lab', hsplit', hkept, -⟩ := split_create hsplit hkernel hcreate
    obtain rfl := Option.some.inj hs
    have hrefs : Refs (fun _ => 0) { s.kernel with vm } := h.refs.congr rfl rfl rfl
    exact h.of_kept hrefs rfl hmade hsplit' hkept
  · rename_i root vm hcreate
    obtain ⟨lab', hsplit', hkept, hnew⟩ := split_create hsplit hkernel hcreate
    obtain rfl := Option.some.inj hs
    refine ⟨h.refs.congr rfl rfl rfl, ⟨lab', hsplit', fun sp hsp => ?_⟩,
      fun x hx => (hkept.frames x hx).trans (h.frames x hx)⟩
    change lab' (Function.update s.kernel.root space root sp) = some 4
    rcases eq_or_ne sp space with rfl | hne
    · rw [Function.update_self]
      exact hnew root rfl
    · rw [Function.update_of_ne hne]
      refine hkept.extends_lab (hmade sp ?_)
      rcases List.mem_cons.mp hsp with hsp | hsp
      · exact absurd hsp hne
      · exact hsp

theorem inv_mapCall (h : s.Inv kernelRoot frames) {caller : SpacePtr}
    {target start stop physicalMem : UInt64} {writable executable : Bool}
    (hok : OutsideKernel s (.map caller target start stop physicalMem writable executable))
    (hs : s.step kernelRoot (.map caller target start stop physicalMem writable executable) = some s') :
    s'.Inv kernelRoot frames := by
  obtain ⟨lab, hsplit, hmade⟩ := h.split
  unfold KernelSpaces.step at hs
  dsimp only at hs
  split at hs
  · obtain rfl := Option.some.inj hs
    exact h
  · rename_i space hspace
    split at hs
    · rename_i hmem
      obtain ⟨⟨res, kernel⟩, hcall, rfl⟩ := Option.map_eq_some_iff.mp hs
      unfold Kernel.map at hcall
      rw [hspace] at hcall
      dsimp only at hcall
      split at hcall
      · obtain ⟨-, rfl⟩ := Prod.mk.inj (Option.some.inj hcall)
        exact h
      · rename_i hlt
        split at hcall
        · obtain ⟨-, rfl⟩ := Prod.mk.inj (Option.some.inj hcall)
          exact h
        · rename_i r a x hx
          obtain ⟨hr, ha, hheap⟩ := Kernel.byHandle_ok hx
          split at hcall
          · rename_i size addr allocated hkind
            have hxk : x = ⟨x.refCount, .memory size addr allocated⟩ := by
              rw [← hkind]
            have hmemKind : s.kernel.kindAt a = some (.memory size addr allocated) := by
              rw [Kernel.kindAt_of_heap hheap, hkind]
            obtain ⟨hrefs, hroot, hvm⟩ := Kernel.createMapping_vm h.refs ha hmemKind
              (AssetTable.assetAt_eq_some.mpr ⟨r, hr, ha⟩) hcall
            rcases hvm with hvm | ⟨hlow, e, hmap⟩
            · have hsplit' := hsplit.congr (congrArg Vmm.pmm hvm) (congrArg Vmm.frames hvm)
              refine h.of_kept hrefs hroot hmade hsplit' ?_
              rw [hvm]
              exact Kept.refl _
            · have hlen : (Range.fromBeginLen start.toNat (stop.toNat - start.toNat)).len =
                  stop.toNat - start.toNat := Range.len_fromBeginLen (by
                    have := stop.toNat_lt
                    omega)
              have hstart : (Range.fromBeginLen start.toNat (stop.toNat - start.toNat)).start =
                  start.toNat := Nat.mod_eq_of_lt start.toNat_lt
              obtain ⟨lab', hsplit', hkept⟩ := split_map (fun h1 h2 j hj => by
                rw [hlen] at h1 h2 hj
                rw [hstart]
                exact hok space r a x.refCount size addr allocated hspace (hxk ▸ hx)
                  (Nat.lt_of_not_le hlt) hlow h1 h2 j hj) hsplit (hmade space hmem) hmap
              exact h.of_kept hrefs hroot hmade hsplit' hkept
          · obtain ⟨-, rfl⟩ := Prod.mk.inj (Option.some.inj hcall)
            exact h
    · cases hs

/-- **The kernel's tables are kept**, in runs whose mappings are outside. -/
theorem kernel_tables_kept (kernelRoot : ℕ) (s s' : KernelSpaces) (ops : List SpaceOp)
    (hstart : KernelStart kernelRoot s)
    (hok : Lib.Meets (KernelSpaces.step kernelRoot) OutsideKernel ops s)
    (hrun : Lib.run (KernelSpaces.step kernelRoot) ops s = some s') : KernelKept kernelRoot s s' := by
  have h : s'.Inv kernelRoot s.kernel.vm.frames :=
    Lib.run_invariant_of_meets (P := KernelSpaces.Inv kernelRoot s.kernel.vm.frames)
      (fun s₁ op s₂ h hC hs => by
        cases op with
        | create space => exact inv_createSpace h hs
        | map caller target start stop physicalMem writable executable => exact inv_mapCall h hC hs)
      ops hok (inv_kernelStart hstart) hrun
  obtain ⟨lab, hsplit, hmade⟩ := h.split
  exact ⟨fun x hx => h.frames x (.inr hx), fun space hs i hi hi' => hsplit.upper (hmade space hs) i hi hi'⟩

end Runs
/-! ### The direct map -/

/-- A kernel with one table of the direct map, in the entry 256 of its root at
2 MiB, and one space to be made, with a page of memory under the handle 1. -/
def directMap : KernelSpaces where
  kernel := {
    context := Pmm.smallMap
    kernelVirtualBase := 0xFFFFFFFF80000000
    vm := {
      pmm := Pmm.smallPmm
      frames := fun t i => if t = 0x200000 ∧ i = 256 then ⟨true, true, false, 0x201⟩ else {} }
    root := fun _ => 0
    tables := fun space => if space = 0 then
        (AssetTable.empty 0).insertNew ⟨some 1, 0⟩ (Option.some_ne_none _)
      else AssetTable.empty 0
    heap := fun a => if a = 0 then some ⟨1, .space⟩
      else if a = 1 then some ⟨1, .memory 4096 0x300000 false⟩ else none
    nextPtr := 2 }
  made := []

theorem shared_directMap {x : ℕ} (h : Shared directMap.kernel.vm.frames 0x200000 x) : x = 0x201000 := by
  obtain ⟨i, p, -, -, hp⟩ := h
  have hchild : ∀ t j c, Frames.child directMap.kernel.vm.frames t j = some c →
      t = 0x200000 ∧ c = 0x201000 := by
    intro t j c hc
    obtain ⟨hpresent, haddr⟩ := child_eq_some.mp hc
    change (if t = 0x200000 ∧ (j : ℕ) = 256 then _ else _ : Page).present = true at hpresent
    change (if t = 0x200000 ∧ (j : ℕ) = 256 then _ else _ : Page).address * 4096 = c at haddr
    split at hpresent
    · rename_i htj
      rw [if_pos htj] at haddr
      exact ⟨htj.1, haddr.symm⟩
    · cases hpresent
  unfold tableAt at hp
  rw [Lib.nodeAt_cons, Option.bind_eq_some_iff] at hp
  obtain ⟨c, hc, hp⟩ := hp
  have hc' := (hchild _ _ _ hc).2
  cases p with
  | nil => exact (Option.some.inj hp).symm.trans hc'
  | cons j p =>
    rw [Lib.nodeAt_cons, Option.bind_eq_some_iff] at hp
    obtain ⟨d, hd, -⟩ := hp
    have hd' := (hchild _ _ _ hd).1
    rw [hc'] at hd'
    cases hd'

theorem refs_directMap : Refs (fun _ => 0) directMap.kernel := by
  have hheap : ∀ a x, directMap.kernel.heap a = some x →
      a = 0 ∧ x = ⟨1, .space⟩ ∨ a = 1 ∧ x = ⟨1, .memory 4096 0x300000 false⟩ := by
    intro a x hx
    change (if a = 0 then some _ else if a = 1 then some _ else none) = some x at hx
    split at hx
    · rename_i ha
      exact .inl ⟨ha, (Option.some.inj hx).symm⟩
    · split at hx
      · rename_i ha
        exact .inr ⟨ha, (Option.some.inj hx).symm⟩
      · cases hx
  have hmapped : ∀ p a, mappedBy directMap.kernel.kindAt p ≠ some a := by
    intro p a hp
    obtain ⟨k, hk, ha⟩ := Option.bind_eq_some_iff.mp hp
    obtain ⟨n, hn⟩ := Kernel.kindAt_eq_some.mp hk
    rcases hheap p _ hn with ⟨-, hx⟩ | ⟨-, hx⟩
    · obtain ⟨-, rfl⟩ := Asset.mk.inj hx
      cases ha
    · obtain ⟨-, rfl⟩ := Asset.mk.inj hx
      cases ha
  have hholds : ∀ d a, directMap.kernel.holds d = some a → d = .entry 0 1 ∧ a = 1 := by
    intro d a hd
    cases d with
    | mapping p => exact absurd hd (hmapped p a)
    | entry space h =>
      change (AssetTable.assetAt (if space = 0 then _ else _) h) = some a at hd
      split at hd
      · rename_i hspace
        rw [AssetTable.assetAt_insertNew] at hd
        split at hd
        · rename_i hh
          rw [hspace, hh]
          exact ⟨rfl, (Option.some.inj hd).symm⟩
        · cases hd
      · cases hd
  refine ⟨fun d a hd => ?_, fun a x hx => ?_, fun a ha => ?_, fun p a hp => absurd hp (hmapped p a)⟩
  · rw [(hholds d a hd).2]
    exact Option.some_ne_none _
  · refine ⟨1, ?_, fun L hnodup hL => ?_⟩
    · rcases hheap a x hx with ⟨-, rfl⟩ | ⟨-, rfl⟩
      · rfl
      · rfl
    · cases L with
      | nil => exact Nat.zero_le 1
      | cons d L =>
        cases L with
        | nil => exact Nat.le_refl 1
        | cons e L =>
          have hd := (hholds d a (hL d List.mem_cons_self)).1
          have he := (hholds e a (hL e (List.mem_cons_of_mem _ List.mem_cons_self))).1
          rw [hd, he] at hnodup
          exact absurd List.mem_cons_self (List.nodup_cons.mp hnodup).1
  · obtain ⟨x, hx⟩ := Option.ne_none_iff_exists'.mp ha
    rcases hheap a x hx with ⟨rfl, -⟩ | ⟨rfl, -⟩
    · decide
    · decide

theorem kernelStart_directMap : KernelStart 0x200000 directMap := by
  have hpmm : directMap.kernel.vm.pmm = Pmm.smallPmm := by simp only [directMap]
  have hsections : SectionsDisjoint Pmm.smallMap := ⟨by decide +kernel, by decide +kernel⟩
  have hcreate : Pmm.create Pmm.smallMap (fun _ => 0) = .ok Pmm.smallPmm := rfl
  refine ⟨⟨_, _, _, hsections, hcreate, ?_⟩, by decide +kernel, fun x hx => ?_, refs_directMap,
    by decide, rfl⟩
  · rw [hpmm]
    exact Pmm.Same.refl Pmm.smallPmm
  · rw [shared_directMap hx]
    decide +kernel

/-- The page of memory is mapped into the direct map. -/
def mapDirect : List SpaceOp :=
  [.create 0, .map 0 0 0xFFFF800000000000 0xFFFF800000001000 1 true false]

/-- The kernel's table has a new entry. -/
theorem kernel_table_changed :
    ¬ ∀ (kernelRoot : ℕ) (s s' : KernelSpaces) (ops : List SpaceOp), KernelStart kernelRoot s →
      Lib.run (KernelSpaces.step kernelRoot) ops s = some s' → KernelKept kernelRoot s s' := by
  intro h
  have hentry : (Lib.run (KernelSpaces.step 0x200000) mapDirect directMap).map
      (fun s => (s.kernel.vm.frames 0x201000 0).present) = some true := by decide +kernel
  obtain ⟨s', hrun, hs'⟩ := Option.map_eq_some_iff.mp hentry
  have hshared : Shared directMap.kernel.vm.frames 0x200000 0x201000 := ⟨256, [], by decide, by decide, rfl⟩
  have hkept := (h 0x200000 directMap s' mapDirect kernelStart_directMap hrun).tables _ hshared
  rw [hkept] at hs'
  cases hs'

/-- The page of memory is mapped at 4 MiB. -/
def mapLow : List SpaceOp := [.create 0, .map 0 0 0x400000 0x401000 1 true false]

theorem kernel_tables_kept_low :
    ∃ s', Lib.run (KernelSpaces.step 0x200000) mapLow directMap = some s' ∧
      KernelKept 0x200000 directMap s' := by
  have hsome : (Lib.run (KernelSpaces.step 0x200000) mapLow directMap).isSome = true := by
    decide +kernel
  obtain ⟨s', hrun⟩ := Option.isSome_iff_exists.mp hsome
  refine ⟨s', hrun, kernel_tables_kept 0x200000 directMap s' mapLow kernelStart_directMap
    ⟨trivial, fun s₁ _ => ⟨?_, fun _ _ => trivial⟩⟩ hrun⟩
  intro space r a n size addr allocated _ _ _ _ _ _ k hk
  obtain rfl : k = 0 := by
    have : k < 1 := hk
    omega
  decide

end WingOS
