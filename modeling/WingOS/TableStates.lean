/-
# The states of a page table

What a root can lead to, whatever was done before: the root was made empty or
by `VmmSpace::create` from a kernel's root, pages were mapped with any rights
and unmapped, for the user or not, and elsewhere memory was written and pages
were allocated and freed (`TableState`). In all these states the tables are a tree
of marked frames, and no entry has a right that the entry above it lacks
(`SoundTables`); that is the invariant `Tables` for an allocator in which just the
tables are not yet taken (`soundTables_iff`).

`unmap` for the user looks at the rights of the entries above the last level,
and clears the entry of the last level whatever it is. The rights above are
those of all pages below together, so a page of the kernel goes if it has a
page of the user beside it (`user_unmap_iff`).

Key definitions: `SoundTables`, `PageCall`, `TableState`, `UserUnmapSafe`, `userAbove`.
Key theorems: `soundTables_iff`, `TableState.sound`, `user_unmap_iff`.
-/
import WingOS.Translation
import WingOS.SharedTables

namespace WingOS

open Lib (Memory bitAt TreeOn)

/-! ### Tables of an unknown past -/

structure SoundTables (root : ℕ) (v : Vmm) : Prop where
  layout : Layout v.pmm.windows
  aligned : ∀ w ∈ v.pmm.windows, w.range.start % 4096 = 0
  marked : ∀ p x, p.length ≤ 3 → tableAt v.frames root p = some x → v.pmm.NotFree x
  inside : ∀ x, IsChild v.frames root x → ∃ w ∈ v.pmm.windows, ∃ j < w.pages, w.page j = x
  tree : TreeOn (Frames.child v.frames) root 3
  dominated : ∀ p i e j e', p.length ≤ 2 → entryAt v.frames root p i = some e → e.present = true →
    entryAt v.frames root (p ++ [i]) j = some e' → e'.present = true → e'.Below e

namespace Pmm

/-- A page that is allocated was free. -/
theorem free_allocate_one {p p' : Pmm} (hL : Layout p.windows)
    (hal : ∀ w ∈ p.windows, w.range.start % 4096 = 0) {c : ℕ} {lower : Bool}
    (ha : p.allocate 1 lower = (.ok c, p')) : ¬ p.NotFree c := by
  obtain ⟨-, w, hw, k, hrun, -, -⟩ := allocate_ok hL ha
  have h1 := hal w hw
  have h2 := hrun.addr_eq
  unfold Window.page at h2
  refine free_allocated hL hal ha ?_ (by omega)
  unfold PageRange.Covers
  dsimp only
  omega

/-- An allocator with some of the pages of its sections free. -/
theorem exists_unmarked {p : Pmm} (hL : Layout p.windows) {C : ℕ → Prop}
    (hC : ∀ x, C x → ∃ w ∈ p.windows, ∃ j < w.pages, w.page j = x) :
    ∃ p₀ : Pmm, p₀.Same p ∧ ∀ x, p₀.NotFree x ↔ p.NotFree x ∧ ¬ C x := by
  classical
  obtain ⟨m, hm⟩ := Lib.exists_memory fun k =>
    bitAt p.mem k && !decide (∃ w ∈ p.windows, ∃ j < w.pages, 8 * w.data + j = k ∧ C (w.page j))
  refine ⟨{ p with mem := m }, Same.refl p, fun x => ?_⟩
  have hbit : ∀ w ∈ p.windows, ∀ j < w.pages, w.bit m j = true ↔ w.bit p.mem j = true ∧ ¬ C (w.page j) := by
    intro w hw j hj
    unfold Window.bit
    rw [hm, Bool.and_eq_true, Bool.not_eq_true', decide_eq_false_iff_not]
    refine and_congr_right fun _ => not_congr ⟨?_, fun hc => ⟨w, hw, j, hj, rfl, hc⟩⟩
    rintro ⟨u, hu, i, hi, heq, hc⟩
    obtain ⟨rfl, rfl⟩ := hL.eq_of_bit hu hw hi hj heq
    exact hc
  constructor
  · intro hx
    refine ⟨fun w hw j hj hpage => ((hbit w hw j hj).mp (hx w hw j hj hpage)).1, fun hc => ?_⟩
    obtain ⟨w, hw, j, hj, hpage⟩ := hC x hc
    exact ((hbit w hw j hj).mp (hx w hw j hj hpage)).2 (hpage.symm ▸ hc)
  · rintro ⟨hx, hc⟩ w hw j hj hpage
    exact (hbit w hw j hj).mpr ⟨hx w hw j hj hpage, fun hcx => hc (hpage ▸ hcx)⟩

end Pmm

section Sound

variable {p₀ : Pmm} {root : ℕ} {v v' : Vmm}

theorem Tables.sound (h : Tables p₀ root v) : SoundTables root v where
  layout := h.layout
  aligned := h.aligned
  marked := fun _ _ hp hx => h.notFree hp hx
  inside := by
    intro x hx
    obtain ⟨w, hw, j, hj, hpage⟩ := Pmm.exists_of_not_notFree (h.fresh x hx)
    exact ⟨w, h.same.1 ▸ hw, j, hj, hpage⟩
  tree := h.tree
  dominated := h.dominated

/-- The root is not below itself. -/
theorem SoundTables.root_not_child (h : SoundTables root v) : ¬ IsChild v.frames root root := by
  intro ⟨q, hne, hq, hx⟩
  exact hne (h.tree q [] root hq (Nat.zero_le 3) hx rfl)

theorem soundTables_iff : SoundTables root v ↔ ∃ p₀, Tables p₀ root v := by
  refine ⟨fun h => ?_, fun ⟨p₀, h⟩ => h.sound⟩
  obtain ⟨p₀, hsame, hmarks⟩ := Pmm.exists_unmarked h.layout (C := IsChild v.frames root) h.inside
  have hchild : ∀ x, IsChild v.frames root x → v.pmm.NotFree x := fun x ⟨q, _, hq, hx⟩ => h.marked q x hq hx
  refine ⟨p₀, h.layout, h.aligned, hsame,
    (hmarks root).mpr ⟨h.marked [] root (Nat.zero_le 3) rfl, h.root_not_child⟩, h.tree,
    fun x hx hfree => ((hmarks x).mp hfree).2 hx, fun x => ?_, h.dominated⟩
  rw [hmarks]
  by_cases hx : IsChild v.frames root x
  · exact ⟨fun _ => .inr hx, fun _ => hchild x hx⟩
  · exact ⟨fun hmark => .inl ⟨hmark, hx⟩, fun hc => hc.elim And.left (absurd · hx)⟩

end Sound

/-! ### TableState states -/

/-- The calls of `PageTable<4>` that change the tables. -/
inductive PageCall
  | map (vaddr : ℕ) (flags : PageFlags) (paddr : ℕ)
  | unmap (vaddr : ℕ) (user : Bool)

def PageCall.call (root : ℕ) : PageCall → Vmm → Option (Except String Unit × Vmm)
  | map vaddr flags paddr, v => some (v.mapPage vaddr (pageCreate flags paddr) 4 root)
  | unmap vaddr user, v => v.unmapPage vaddr user 4 root

/-- The root, and the memory it is in. Other memory may change, and other pages
may be allocated and freed. -/
inductive TableState : ℕ → Vmm → Prop
  | start {root : ℕ} {v : Vmm} (h : Start root v) : TableState root v
  | call {root : ℕ} {v v' : Vmm} {res : Except String Unit} (h : TableState root v) (op : PageCall)
      (hcall : op.call root v = some (res, v')) : TableState root v'
  | create {kernelRoot root : ℕ} {v v' : Vmm} {empty : Bool} (h : TableState kernelRoot v)
      (hcreate : v.create kernelRoot empty = (.ok root, v')) : TableState root v'
  | elsewhere {root : ℕ} {v v' : Vmm} (h : TableState root v) (hsame : v.pmm.Same v'.pmm)
      (hkept : ∀ p x, p.length ≤ 3 → tableAt v.frames root p = some x →
        v'.frames x = v.frames x ∧ v'.pmm.NotFree x) : TableState root v'

section States

variable {root kernelRoot : ℕ} {v v' : Vmm} {p : List (Fin 512)} {i : Fin 512} {x : ℕ} {e : Page}

/-! #### A new root -/

/-- The root that `VmmSpace::create` has filled. -/
structure Copies (kernelRoot root : ℕ) (empty : Bool) (v v' : Vmm) : Prop where
  kernel : SoundTables kernelRoot v
  same : v.pmm.Same v'.pmm
  marks : ∀ x, v'.pmm.NotFree x ↔ v.pmm.NotFree x ∨ x = root
  free : ¬ v.pmm.NotFree root
  frames : v'.frames = Function.update v.frames root fun i =>
    if empty = false ∧ 255 ≤ i then v.frames kernelRoot i else {}

theorem copies_of_create {empty : Bool} (h : SoundTables kernelRoot v)
    (hcreate : v.create kernelRoot empty = (.ok root, v')) : Copies kernelRoot root empty v v' := by
  unfold Vmm.create at hcreate
  split at hcreate
  · simp at hcreate
  · rename_i c pmm ha
    simp only [Prod.mk.injEq, Except.ok.injEq] at hcreate
    obtain ⟨rfl, rfl⟩ := hcreate
    exact ⟨h, (Pmm.grows_allocate h.layout ha).1, Pmm.notFree_allocate_one h.layout h.aligned ha,
      Pmm.free_allocate_one h.layout h.aligned ha, rfl⟩

namespace Copies

variable {empty : Bool}

/-- No table of the kernel is the new root. -/
theorem ne_of_table (h : Copies kernelRoot root empty v v') (hp : p.length ≤ 3)
    (hx : tableAt v.frames kernelRoot p = some x) : x ≠ root :=
  fun hc => h.free (hc ▸ h.kernel.marked p x hp hx)

theorem child_root (h : Copies kernelRoot root empty v v') (hx : Frames.child v'.frames root i = some x) :
    Frames.child v.frames kernelRoot i = some x := by
  rw [child_eq_some] at hx ⊢
  rw [h.frames, Function.update_self] at hx
  split at hx
  · exact hx
  · cases hx.1

/-- A path from the new root is one from the kernel's. -/
theorem tableAt_eq (h : Copies kernelRoot root empty v v') (hp : p.length ≤ 3) (hne : p ≠ [])
    (hx : tableAt v'.frames root p = some x) : tableAt v.frames kernelRoot p = some x := by
  induction p using List.reverseRecOn generalizing x with
  | nil => exact absurd rfl hne
  | append_singleton p i ih =>
    rw [List.length_append, List.length_singleton] at hp
    by_cases hnil : p = []
    · subst hnil
      rw [List.nil_append] at hx ⊢
      have := h.child_root (i := i) (x := x) (by rw [← hx]; exact (tableAt_concat (tableAt_nil _ _)).symm)
      rw [← this]
      exact tableAt_concat (tableAt_nil _ _)
    · cases ht : tableAt v'.frames root p with
      | none =>
        unfold tableAt at hx ht
        rw [Lib.nodeAt_concat, ht] at hx
        cases hx
      | some t =>
        have hk := ih (by omega) hnil ht
        rw [tableAt_concat ht] at hx
        rw [tableAt_concat hk, ← hx]
        unfold Frames.child
        rw [h.frames, Function.update_of_ne (h.ne_of_table (by omega) hk)]

theorem entryAt_eq (h : Copies kernelRoot root empty v v') (hp : p.length ≤ 3)
    (he : entryAt v'.frames root p i = some e) (hpresent : e.present = true) :
    entryAt v.frames kernelRoot p i = some e := by
  unfold entryAt at he
  obtain ⟨t, ht, he⟩ := Option.map_eq_some_iff.mp he
  by_cases hne : p = []
  · rw [hne, tableAt_nil, Option.some_inj] at ht
    rw [← ht, h.frames, Function.update_self] at he
    split at he
    · rw [hne, entryAt_of_some (tableAt_nil _ _), he]
    · rw [← he] at hpresent
      cases hpresent
  · have hk := h.tableAt_eq hp hne ht
    rw [h.frames, Function.update_of_ne (h.ne_of_table hp hk)] at he
    rw [entryAt_of_some hk, he]

theorem sound (h : Copies kernelRoot root empty v v') : SoundTables root v' where
  layout := h.same.1 ▸ h.kernel.layout
  aligned := h.same.1 ▸ h.kernel.aligned
  marked := by
    intro p x hp hx
    rw [h.marks]
    by_cases hne : p = []
    · rw [hne, tableAt_nil, Option.some_inj] at hx
      exact .inr hx.symm
    · exact .inl (h.kernel.marked p x hp (h.tableAt_eq hp hne hx))
  inside := by
    intro x ⟨q, hne, hq, hx⟩
    rw [h.same.1]
    exact h.kernel.inside x ⟨q, hne, hq, h.tableAt_eq hq hne hx⟩
  tree := by
    have hroot : ∀ {q : List (Fin 512)}, q.length ≤ 3 → tableAt v'.frames root q = some root → q = [] := by
      intro q hq hx
      by_contra hne
      exact h.ne_of_table hq (h.tableAt_eq hq hne hx) rfl
    intro p q x hp hq hx hx'
    by_cases hne : p = []
    · subst hne
      rw [Lib.nodeAt, Option.some_inj] at hx
      exact (hroot hq (hx.symm ▸ hx')).symm
    · by_cases hne' : q = []
      · subst hne'
        rw [Lib.nodeAt, Option.some_inj] at hx'
        exact hroot hp (hx'.symm ▸ hx)
      · exact h.kernel.tree p q x hp hq (h.tableAt_eq hp hne hx) (h.tableAt_eq hq hne' hx')
  dominated := by
    intro p i e j e' hp he hpe he' hpe'
    have hlen : (p ++ [i]).length ≤ 3 := by
      rw [List.length_append, List.length_singleton]
      omega
    exact h.kernel.dominated p i e j e' hp (h.entryAt_eq (by omega) he hpe) hpe
      (h.entryAt_eq hlen he' hpe') hpe'

end Copies

/-! #### Changes elsewhere -/

theorem tableAt_elsewhere (hkept : ∀ p x, p.length ≤ 3 → tableAt v.frames root p = some x →
      v'.frames x = v.frames x ∧ v'.pmm.NotFree x) (hp : p.length ≤ 3) :
    tableAt v'.frames root p = tableAt v.frames root p := by
  refine Lib.nodeAt_congr p fun r j hr x hx => ?_
  have := hr.length_le
  rw [List.length_append, List.length_singleton] at this
  unfold Frames.child
  rw [(hkept r x (by omega) hx).1]

theorem sound_elsewhere (h : SoundTables root v) (hsame : v.pmm.Same v'.pmm)
    (hkept : ∀ p x, p.length ≤ 3 → tableAt v.frames root p = some x →
      v'.frames x = v.frames x ∧ v'.pmm.NotFree x) : SoundTables root v' := by
  have htable := fun {q : List (Fin 512)} (hq : q.length ≤ 3) => tableAt_elsewhere hkept hq
  have hentry : ∀ {q : List (Fin 512)} {j : Fin 512}, q.length ≤ 3 →
      entryAt v'.frames root q j = entryAt v.frames root q j := by
    intro q j hq
    unfold entryAt
    rw [htable hq]
    cases hx : tableAt v.frames root q with
    | none => rfl
    | some x => rw [Option.map_some, Option.map_some, (hkept q x hq hx).1]
  refine ⟨hsame.1 ▸ h.layout, hsame.1 ▸ h.aligned, fun q x hq hx => (hkept q x hq (htable hq ▸ hx)).2, ?_,
    ?_, ?_⟩
  · intro x ⟨q, hne, hq, hx⟩
    rw [hsame.1]
    exact h.inside x ⟨q, hne, hq, htable hq ▸ hx⟩
  · intro q r x hq hr hqx hrx
    have hqx' : tableAt v.frames root q = some x := htable hq ▸ hqx
    have hrx' : tableAt v.frames root r = some x := htable hr ▸ hrx
    exact h.tree q r x hq hr hqx' hrx'
  · intro q k e j e' hq he hpe he' hpe'
    rw [hentry (by omega)] at he
    rw [hentry (by rw [List.length_append, List.length_singleton]; omega)] at he'
    exact h.dominated q k e j e' hq he hpe he' hpe'

end States

/-! ### Unmap for the user -/

/-- The entries above the last level are the user's. -/
def userAbove (frames : Frames) (vaddr : ℕ) : (level t : ℕ) → Bool
  | 0, _ => true
  | 1, _ => true
  | level + 2, t =>
    let entry := frames t (tableIndex (level + 2) vaddr)
    entry.user && userAbove frames vaddr (level + 1) (entry.address * 4096)

section Unmap

variable {p₀ : Pmm} {root vaddr : ℕ} {v v' : Vmm}

/-- Where the entries above are the user's, the flag makes no difference. -/
theorem unmapPage_of_userAbove (vaddr : ℕ) (v : Vmm) : ∀ {level t : ℕ},
    userAbove v.frames vaddr level t = true → v.unmapPage vaddr true level t = v.unmapPage vaddr false level t
  | 0, _, _ => rfl
  | 1, _, _ => rfl
  | level + 2, t, h => by
    unfold userAbove at h
    rw [Bool.and_eq_true] at h
    obtain ⟨huser, hbelow⟩ := h
    unfold Vmm.unmapPage
    dsimp only
    split
    · rfl
    · rw [if_neg (by simp [huser]), if_neg (by simp), unmapPage_of_userAbove vaddr v hbelow]

/-- Elsewhere it stops at the first entry that is not there or the kernel's. -/
theorem unmapPage_of_not_userAbove (vaddr : ℕ) (v : Vmm) : ∀ {level t : ℕ},
    userAbove v.frames vaddr level t = false → ∃ e, v.unmapPage vaddr true level t = some (.error e, v)
  | 0, _, h => by cases h
  | 1, _, h => by cases h
  | level + 2, t, h => by
    unfold userAbove at h
    dsimp only at h
    unfold Vmm.unmapPage
    dsimp only
    split
    · exact ⟨_, rfl⟩
    · split
      · exact ⟨_, rfl⟩
      · rename_i hkernel
        have huser : (v.frames t (tableIndex (level + 2) vaddr)).user = true := by
          by_contra hc
          exact hkernel ⟨rfl, Bool.eq_false_iff.mpr hc⟩
        rw [huser, Bool.true_and] at h
        obtain ⟨e, he⟩ := unmapPage_of_not_userAbove vaddr v h
        rw [he]
        exact ⟨e, rfl⟩

/-- Without the flag it fails only where a table is missing. -/
theorem leafSlot_of_unmapPage_error : ∀ {level t : ℕ} {v' : Vmm} {e : String},
    v.unmapPage vaddr false level t = some (.error e, v') → leafSlot v.frames vaddr level t = none
  | 0, _, _, _, h => by cases h
  | 1, _, _, _, h => by cases h
  | level + 2, t, _, _, h => by
    unfold Vmm.unmapPage at h
    unfold leafSlot
    dsimp only at h ⊢
    split at h
    · rename_i habsent
      rw [if_neg (by simp [habsent])]
    · rename_i hpresent
      rw [if_pos ((Bool.not_eq_false _).mp hpresent)]
      rw [if_neg (by simp)] at h
      split at h
      · cases h
      · rename_i hrec
        exact leafSlot_of_unmapPage_error hrec
      · split at h
        · cases h
        · obtain ⟨_, -, hc⟩ := Option.map_eq_some_iff.mp h
          cases hc

/-- The call returns, and keeps the invariant. -/
theorem unmapPage_cases (h : Tables p₀ root v) (vaddr : ℕ) (user : Bool) :
    ∃ res v', v.unmapPage vaddr user 4 root = some (res, v') ∧ Tables p₀ root v' ∧
      (res = .ok () ∨ v' = v) := by
  obtain ⟨res, v', hunmap, hT, hdone⟩ := unmap_root h vaddr
  have hplain : ∃ res v', v.unmapPage vaddr false 4 root = some (res, v') ∧ Tables p₀ root v' ∧
      (res = .ok () ∨ v' = v) :=
    ⟨res, v', hunmap, hT, hdone.imp And.left And.right⟩
  cases user with
  | false => exact hplain
  | true =>
    cases ha : userAbove v.frames vaddr 4 root with
    | true =>
      rw [unmapPage_of_userAbove vaddr v ha]
      exact hplain
    | false =>
      obtain ⟨e, he⟩ := unmapPage_of_not_userAbove vaddr v ha
      exact ⟨.error e, v, he, h, .inr rfl⟩

/-- **One call** keeps the invariant. -/
theorem PageCall.tables (h : Tables p₀ root v) (op : PageCall) {res : Except String Unit}
    (hcall : op.call root v = some (res, v')) : Tables p₀ root v' := by
  cases op with
  | map vaddr flags paddr =>
    exact (map_root h rfl (Option.some.inj hcall)).1
  | unmap vaddr user =>
    obtain ⟨res', v'', hunmap, hT, -⟩ := unmapPage_cases h vaddr user
    have : (res', v'') = (res, v') := Option.some.inj (hunmap.symm.trans hcall)
    exact (Prod.mk.inj this).2 ▸ hT

theorem TableState.sound (h : TableState root v) : SoundTables root v := by
  induction h with
  | start hstart => exact (tables_start hstart).sound
  | call _ op hcall ih =>
    obtain ⟨p₀, hT⟩ := soundTables_iff.mp ih
    exact (op.tables hT hcall).sound
  | create _ hcreate ih => exact (copies_of_create ih hcreate).sound
  | elsewhere _ hsame hkept ih => exact sound_elsewhere ih hsame hkept

/-- What `unmap` for the user must not do: take away a page of the kernel, or
change anything when it fails. -/
def UserUnmapSafe (root : ℕ) (v : Vmm) (vaddr : ℕ) : Prop :=
  ∃ res v', v.unmapPage vaddr true 4 root = some (res, v') ∧
    (res = .ok () → ∀ e, walk v.frames vaddr root = some e → e.user = true) ∧ (res ≠ .ok () → v' = v)

/-- **A user's unmap** takes a page of the kernel just where there is one with
entries of the user above it. -/
theorem user_unmap_iff (h : TableState root v) (vaddr : ℕ) : UserUnmapSafe root v vaddr ↔
    ¬ ∃ e, walk v.frames vaddr root = some e ∧ e.user = false ∧ userAbove v.frames vaddr 4 root = true := by
  obtain ⟨p₀, hT⟩ := soundTables_iff.mp h.sound
  constructor
  · rintro ⟨res, v', hunmap, hok, -⟩ ⟨e, he, hkernel, ha⟩
    rw [unmapPage_of_userAbove vaddr v ha] at hunmap
    cases res with
    | ok u => exact absurd (hok rfl e he) (by rw [hkernel]; exact Bool.false_ne_true)
    | error msg =>
      unfold walk at he
      rw [leafSlot_of_unmapPage_error hunmap] at he
      cases he
  · intro hno
    obtain ⟨res, v', hunmap, -, hcases⟩ := unmapPage_cases hT vaddr true
    refine ⟨res, v', hunmap, fun hres e he => ?_, fun hres => hcases.resolve_left hres⟩
    by_contra hkernel
    refine hno ⟨e, he, Bool.eq_false_iff.mpr hkernel, ?_⟩
    by_contra ha
    obtain ⟨msg, hmsg⟩ := unmapPage_of_not_userAbove vaddr v (Bool.eq_false_iff.mpr ha)
    have : (res, v') = (.error msg, v) := Option.some.inj (hunmap.symm.trans hmsg)
    rw [hres] at this
    cases (Prod.mk.inj this).1

end Unmap

/-! ### A page of the kernel beside one of the user -/

/-- A page of the kernel at 4 MiB and a page of the user behind it. -/
def mixedVmm : Vmm :=
  ((smallVmm.mapPage 0x400000 (pageCreate ⟨true, false⟩ 0x200000) 4 0x108000).2.mapPage 0x401000
    (pageCreate ⟨true, true⟩ 0x201000) 4 0x108000).2

theorem tableState_mixedVmm : TableState 0x108000 mixedVmm :=
  ((TableState.start start_smallVmm).call (.map 0x400000 ⟨true, false⟩ 0x200000) rfl).call
    (.map 0x401000 ⟨true, true⟩ 0x201000) rfl

/-- The page of the kernel goes. -/
theorem user_unmap_kernel : TableState 0x108000 mixedVmm ∧ ¬ UserUnmapSafe 0x108000 mixedVmm 0x400000 := by
  refine ⟨tableState_mixedVmm, ?_⟩
  rintro ⟨res, v', hunmap, hok, -⟩
  have hres : (mixedVmm.unmapPage 0x400000 true 4 0x108000).map (fun x => x.1.isOk) = some true := by
    decide +kernel
  have hleaf : (walk mixedVmm.frames 0x400000 0x108000).map Page.user = some false := by decide +kernel
  obtain ⟨e, he, huser⟩ := Option.map_eq_some_iff.mp hleaf
  rw [hunmap, Option.map_some, Option.some_inj] at hres
  cases res with
  | ok u => exact absurd (hok rfl e he) (by rw [huser]; exact Bool.false_ne_true)
  | error msg => cases hres

theorem user_unmap_iff_mixed : TableState 0x108000 mixedVmm ∧
    (UserUnmapSafe 0x108000 mixedVmm 0x401000 ↔ ¬ ∃ e, walk mixedVmm.frames 0x401000 0x108000 = some e ∧
      e.user = false ∧ userAbove mixedVmm.frames 0x401000 4 0x108000 = true) :=
  ⟨tableState_mixedVmm, user_unmap_iff tableState_mixedVmm 0x401000⟩

end WingOS
