/-
# What map and unmap do to the tables

The tables of one root, as a tree. `Tables` is the invariant of `map` and
`unmap`: no table is on two paths, the tables below the root are just the
frames that were taken from the allocator since the start, and no entry has a
right that the entry above it lacks. So the rights along a walk are those of
its last entry.

An operation is a sequence of changes of one entry each: an entry gets more
rights (`tables_widen`), a new table is put into an absent entry
(`tables_insert`), an entry of the last level is written (`tables_setLeaf`), and
an empty table is given back (`tables_erase`). Each is told by what the tables
and the entries are after it.

Key definitions: `entryAt`, `Tables`, `Above`, `Filled`.
Key theorems: `map_spec`, `unmap_spec`.
-/
import WingOS.PageTable
import WingOS.MappedPages

namespace WingOS

open Lib (nodeAt TreeOn SameExcept)
open PageRange

/-- The entry at an index of the table at a path. -/
def entryAt (frames : Frames) (root : ℕ) (p : List (Fin 512)) (i : Fin 512) : Option Page :=
  (tableAt frames root p).map fun t => frames t i

/-- The rights of `a` are rights of `b`. -/
def Page.Below (a b : Page) : Prop :=
  (a.user = true → b.user = true) ∧ (a.writeable = true → b.writeable = true)

theorem Page.Below.trans {a b c : Page} (h : a.Below b) (h' : b.Below c) : a.Below c :=
  ⟨fun hu => h'.1 (h.1 hu), fun hw => h'.2 (h.2 hw)⟩

/-- `x` is a table below the root. -/
def IsChild (frames : Frames) (root x : ℕ) : Prop :=
  ∃ p, p ≠ [] ∧ p.length ≤ 3 ∧ tableAt frames root p = some x

/-- The tables of `root`, where `p₀` is the allocator at the start. -/
structure Tables (p₀ : Pmm) (root : ℕ) (v : Vmm) : Prop where
  layout : Layout v.pmm.windows
  aligned : ∀ w ∈ v.pmm.windows, w.range.start % 4096 = 0
  same : p₀.Same v.pmm
  root_marked : p₀.NotFree root
  tree : TreeOn (Frames.child v.frames) root 3
  fresh : ∀ x, IsChild v.frames root x → ¬ p₀.NotFree x
  marks : ∀ x, v.pmm.NotFree x ↔ p₀.NotFree x ∨ IsChild v.frames root x
  dominated : ∀ p i e j e', p.length ≤ 2 → entryAt v.frames root p i = some e → e.present = true →
    entryAt v.frames root (p ++ [i]) j = some e' → e'.present = true → e'.Below e

/-- The entry above the table at `p` has the rights of `page`. -/
def Above (frames : Frames) (root : ℕ) (p : List (Fin 512)) (page : Page) : Prop :=
  ∀ p' i e, p = p' ++ [i] → entryAt frames root p' i = some e → page.Below e

/-- The table at `p`, if there is one, has a present entry. -/
def Filled (frames : Frames) (root : ℕ) (p : List (Fin 512)) : Prop :=
  ∀ x, tableAt frames root p = some x → ∃ j e, entryAt frames root p j = some e ∧ e.present = true

section Entries

variable {p₀ : Pmm} {root : ℕ} {v : Vmm} {p q : List (Fin 512)} {t c : ℕ} {i j : Fin 512} {page : Page}

theorem tableAt_nil (frames : Frames) (root : ℕ) : tableAt frames root [] = some root := rfl

theorem entryAt_of_some {frames : Frames} (h : tableAt frames root p = some t) :
    entryAt frames root p i = some (frames t i) := by
  unfold entryAt
  rw [h]
  rfl

theorem tableAt_concat {frames : Frames} (h : tableAt frames root p = some t) :
    tableAt frames root (p ++ [i]) = Frames.child frames t i := Lib.nodeAt_concat_of_some h

theorem setEntry_frames (v : Vmm) (t : ℕ) (i : Fin 512) (page : Page) (x : ℕ) (j : Fin 512) :
    (v.setEntry t i page).frames x j = if x = t ∧ j = i then page else v.frames x j := by
  unfold Vmm.setEntry
  dsimp only
  simp only [Fin.val_inj]

/-- The tables are marked. -/
theorem Tables.notFree (h : Tables p₀ root v) (hq : q.length ≤ 3)
    (hx : tableAt v.frames root q = some t) : v.pmm.NotFree t := by
  rw [h.marks]
  by_cases hne : q = []
  · rw [hne, tableAt_nil, Option.some_inj] at hx
    exact .inl (hx ▸ h.root_marked)
  · exact .inr ⟨q, hne, hq, hx⟩

/-- One entry of one table changes. -/
theorem entryAt_setEntry (hT : TreeOn (Frames.child v.frames) root 3) (hp : p.length ≤ 3)
    (ht : tableAt v.frames root p = some t) (hq : q.length ≤ 3)
    (htable : tableAt (v.setEntry t i page).frames root q = tableAt v.frames root q) :
    entryAt (v.setEntry t i page).frames root q j =
      if q = p ∧ j = i then some page else entryAt v.frames root q j := by
  unfold entryAt
  rw [htable]
  cases hx : tableAt v.frames root q with
  | none =>
    rw [if_neg]
    · rfl
    · intro ⟨hqp, _⟩
      rw [hqp, ht] at hx
      cases hx
  | some x =>
    rw [Option.map_some, setEntry_frames]
    have hiff : x = t ↔ q = p := by
      constructor
      · intro hxt
        rw [hxt] at hx
        exact hT q p t hq hp hx ht
      · intro hqp
        rw [hqp, ht] at hx
        exact (Option.some.inj hx).symm
    by_cases hq' : q = p ∧ j = i
    · rw [if_pos hq', if_pos ⟨hiff.mpr hq'.1, hq'.2⟩]
    · rw [if_neg hq', if_neg fun h => hq' ⟨hiff.mp h.1, h.2⟩]
      rfl

/-- All children but one stay. -/
theorem sameExcept_setEntry (v : Vmm) (root n t : ℕ) (i : Fin 512) (page : Page) :
    SameExcept (Frames.child v.frames) (Frames.child (v.setEntry t i page).frames) root n t i := by
  intro q x j _ _ hne
  unfold Frames.child
  rw [setEntry_frames, if_neg hne]

/-! ### Changes of one entry -/

/-- An entry changes, and no table. -/
theorem tables_setEntry (h : Tables p₀ root v) (hp : p.length ≤ 3)
    (ht : tableAt v.frames root p = some t)
    (htables : ∀ q, q.length ≤ 3 →
      tableAt (v.setEntry t i page).frames root q = tableAt v.frames root q)
    (habove : page.present = true → Above v.frames root p page)
    (hbelow : p.length ≤ 2 → page.present = true → ∀ j e', entryAt v.frames root (p ++ [i]) j = some e' →
      e'.present = true → e'.Below page) : Tables p₀ root (v.setEntry t i page) := by
  have hchild : ∀ x, IsChild (v.setEntry t i page).frames root x ↔ IsChild v.frames root x := by
    intro x
    constructor
    · intro ⟨q, hne, hlen, hq⟩
      exact ⟨q, hne, hlen, htables q hlen ▸ hq⟩
    · intro ⟨q, hne, hlen, hq⟩
      exact ⟨q, hne, hlen, (htables q hlen).trans hq⟩
  refine ⟨h.layout, h.aligned, h.same, h.root_marked, ?_, fun x hx => h.fresh x ((hchild x).mp hx),
    fun x => (h.marks x).trans (or_congr Iff.rfl (hchild x).symm), ?_⟩
  · intro q r x hq hr hqx hrx
    have hqx' : tableAt v.frames root q = some x := htables q hq ▸ hqx
    have hrx' : tableAt v.frames root r = some x := htables r hr ▸ hrx
    exact h.tree q r x hq hr hqx' hrx'
  · intro q k e j e' hq he hpe he' hpe'
    have hlen : (q ++ [k]).length ≤ 3 := by
      rw [List.length_append, List.length_singleton]
      omega
    rw [entryAt_setEntry h.tree hp ht (by omega) (htables q (by omega))] at he
    rw [entryAt_setEntry h.tree hp ht hlen (htables _ hlen)] at he'
    by_cases h1 : q = p ∧ k = i
    · rw [if_pos h1, Option.some_inj] at he
      rw [if_neg] at he'
      · rw [h1.1, h1.2] at he'
        rw [← he] at hpe ⊢
        exact hbelow (h1.1 ▸ hq) hpe j e' he' hpe'
      · intro h2
        have := congrArg List.length h2.1
        rw [h1.1, List.length_append, List.length_singleton] at this
        omega
    · rw [if_neg h1] at he
      by_cases h2 : q ++ [k] = p ∧ j = i
      · rw [if_pos h2, Option.some_inj] at he'
        rw [← he'] at hpe' ⊢
        exact habove hpe' q k e h2.1.symm he
      · rw [if_neg h2] at he'
        exact h.dominated q k e j e' hq he hpe he' hpe'

/-- An entry gets more rights. -/
theorem tableAt_widen (v : Vmm) (root : ℕ) (hpresent : page.present = (v.frames t i).present)
    (haddr : page.address = (v.frames t i).address) (q : List (Fin 512)) :
    tableAt (v.setEntry t i page).frames root q = tableAt v.frames root q := by
  have hchild : Frames.child (v.setEntry t i page).frames = Frames.child v.frames := by
    funext x j
    unfold Frames.child
    rw [setEntry_frames]
    split
    · rename_i hx
      rw [hx.1, hx.2, hpresent, haddr]
    · rfl
  unfold tableAt
  rw [hchild]

theorem tables_widen (h : Tables p₀ root v) (hp : p.length ≤ 2) (ht : tableAt v.frames root p = some t)
    (hpresent : (v.frames t i).present = true) (hpage : page.present = true)
    (haddr : page.address = (v.frames t i).address) (hmore : (v.frames t i).Below page)
    (habove : Above v.frames root p page) : Tables p₀ root (v.setEntry t i page) := by
  refine tables_setEntry h (by omega) ht
    (fun q _ => tableAt_widen v root (hpage.trans hpresent.symm) haddr q) (fun _ => habove) ?_
  intro _ _ j e' he' hpe'
  exact (h.dominated p i _ j e' hp (entryAt_of_some ht) hpresent he' hpe').trans hmore

/-- An entry of the last level changes. -/
theorem tableAt_setLeaf (h : Tables p₀ root v) (hp : p.length = 3)
    (ht : tableAt v.frames root p = some t) (i : Fin 512) (page : Page) (hq : q.length ≤ 3) :
    tableAt (v.setEntry t i page).frames root q = tableAt v.frames root q := by
  apply Lib.nodeAt_update h.tree ht (by omega) (sameExcept_setEntry v root 3 t i page) (by omega)
  intro hpre
  have := hpre.length_le
  rw [List.length_append, List.length_singleton] at this
  omega

theorem tables_setLeaf (h : Tables p₀ root v) (hp : p.length = 3)
    (ht : tableAt v.frames root p = some t)
    (habove : page.present = true → Above v.frames root p page) :
    Tables p₀ root (v.setEntry t i page) :=
  tables_setEntry h (by omega) ht (fun _ hq => tableAt_setLeaf h hp ht i page hq) habove
    fun hlen => absurd hlen (by omega)

end Entries

/-! ### Frames -/

namespace Pmm

variable {p p' : Pmm}

/-- The marks after a page was allocated. -/
theorem notFree_allocate_one (hL : Layout p.windows)
    (hal : ∀ w ∈ p.windows, w.range.start % 4096 = 0) {c : ℕ} {lower : Bool}
    (ha : p.allocate 1 lower = (.ok c, p')) (x : ℕ) : p'.NotFree x ↔ p.NotFree x ∨ x = c := by
  obtain ⟨hsame, w, hw, i, hrun, -, hset⟩ := allocate_ok hL ha
  constructor
  · intro hx
    by_cases hxc : x = c
    · exact .inr hxc
    · refine .inl fun u hu j hj hpage => ?_
      have hbit := hx u (hsame.1 ▸ hu) j hj hpage
      rcases (hL.bit_setsRun hu hw hrun hset hj).mp hbit with hold | hc
      · exact hold
      · exfalso
        have h1 := hal u hu
        have h2 := hal w hw
        have h3 := hrun.addr_eq
        unfold Covers at hc
        unfold Window.page at hpage h3 hc
        dsimp only at hc
        omega
  · intro hx
    rcases hx with hx | hx
    · exact (grows_allocate hL ha).notFree hx
    · rw [hx]
      apply notFree_allocated hL ha
      unfold Covers
      dsimp only
      omega

/-- A page that was free is a page of a section. -/
theorem exists_of_not_notFree {x : ℕ} (h : ¬ p.NotFree x) :
    ∃ w ∈ p.windows, ∃ j < w.pages, w.page j = x := by
  by_contra hno
  apply h
  intro w hw j hj hpage
  exact absurd ⟨w, hw, j, hj, hpage⟩ hno

/-- A marked page of a section is released. -/
theorem notFree_release_one (hL : Layout p.windows)
    (hal : ∀ w ∈ p.windows, w.range.start % 4096 = 0) {w : Window} (hw : w ∈ p.windows) {i c : ℕ}
    (hi : i < w.pages) (hc : w.page i = c) (hmarked : p.NotFree c) :
    ∃ p', p.release c 1 = some (.ok (), p') ∧ p.Same p' ∧ ∀ x, p'.NotFree x ↔ p.NotFree x ∧ x ≠ c := by
  have hrun : Run w i c 1 := ⟨hc.symm, by omega⟩
  obtain ⟨p', hrel, hsame, hclear⟩ := release_ok hL hw hrun hi fun j h1 h2 => by
    obtain rfl : j = i := by omega
    exact hmarked w hw j hi hc
  refine ⟨p', hrel, hsame, fun x => ?_⟩
  constructor
  · intro hx
    refine ⟨fun u hu j hj hpage => ?_, ?_⟩
    · have hbit := hx u (hsame.1 ▸ hu) j hj hpage
      exact ((hL.bit_clearsRun hu hw hrun hclear hj).mp hbit).1
    · intro hxc
      have hbit := hx w (hsame.1 ▸ hw) i hi (hc.trans hxc.symm)
      apply ((hL.bit_clearsRun hw hw hrun hclear hi).mp hbit).2
      exact (hL.covers_iff hw hw hrun hi).mpr ⟨rfl, Nat.le_refl i, by omega⟩
  · intro ⟨hx, hne⟩
    refine fun u hu j hj hpage => ?_
    rw [hsame.1] at hu
    refine (hL.bit_clearsRun hu hw hrun hclear hj).mpr ⟨hx u hu j hj hpage, fun hcov => hne ?_⟩
    have h1 := hal u hu
    have h2 := hal w hw
    unfold Covers at hcov
    unfold Window.page at hpage hc hcov
    dsimp only at hcov
    omega

end Pmm

section Frames

variable {p₀ : Pmm} {root : ℕ} {v : Vmm} {p q : List (Fin 512)} {t c : ℕ} {i j : Fin 512} {page : Page}

/-- The state after a new table was put into an entry. -/
def Vmm.insertTable (v : Vmm) (pmm : Pmm) (t : ℕ) (i : Fin 512) (c : ℕ) (page : Page) : Vmm :=
  (Vmm.clearTable { v with pmm } c).install t i page

theorem insertTable_frames (v : Vmm) (pmm : Pmm) (x : ℕ) (j : Fin 512) :
    (v.insertTable pmm t i c page).frames x j =
      if x = t ∧ j = i then page else if x = c then {} else v.frames x j := by
  unfold Vmm.insertTable Vmm.install Vmm.setEntry Vmm.clearTable
  dsimp only
  simp only [Fin.val_inj]

/-- What is needed to put a new table into an absent entry. -/
structure Inserts (v : Vmm) (root : ℕ) (p : List (Fin 512)) (t : ℕ) (i : Fin 512) (c : ℕ)
    (pmm : Pmm) (page : Page) : Prop where
  length : p.length ≤ 2
  table : tableAt v.frames root p = some t
  absent : (v.frames t i).present = false
  allocated : v.pmm.allocate 1 false = (.ok c, pmm)
  present : page.present = true
  address : page.address = c / 4096
  above : Above v.frames root p page

namespace Inserts

variable {pmm : Pmm}

/-- The new frame was free. -/
theorem free (h : Tables p₀ root v) (hi : Inserts v root p t i c pmm page) : ¬ v.pmm.NotFree c := by
  obtain ⟨-, w, hw, k, hrun, -, -⟩ := Pmm.allocate_ok h.layout hi.allocated
  have h1 := h.aligned w hw
  have h2 := hrun.addr_eq
  unfold Window.page at h2
  refine Pmm.free_allocated h.layout h.aligned hi.allocated ?_ (by omega)
  unfold Covers
  dsimp only
  omega

theorem notTable (h : Tables p₀ root v) (hi : Inserts v root p t i c pmm page) (hq : q.length ≤ 3) :
    tableAt v.frames root q ≠ some c := fun hc => hi.free h (h.notFree hq hc)

theorem ne (h : Tables p₀ root v) (hi : Inserts v root p t i c pmm page) : c ≠ t := by
  intro hct
  apply hi.notTable h (q := p) (by have := hi.length; omega)
  rw [hct]
  exact hi.table

theorem child_entry (h : Tables p₀ root v) (hi : Inserts v root p t i c pmm page) :
    Frames.child (v.insertTable pmm t i c page).frames t i = some c := by
  obtain ⟨-, w, hw, k, hrun, -, -⟩ := Pmm.allocate_ok h.layout hi.allocated
  have h1 := h.aligned w hw
  have h2 := hrun.addr_eq
  unfold Window.page at h2
  rw [child_eq_some, insertTable_frames, if_pos ⟨rfl, rfl⟩, hi.present, hi.address]
  exact ⟨rfl, by omega⟩

theorem child_new (h : Tables p₀ root v) (hi : Inserts v root p t i c pmm page) (j : Fin 512) :
    Frames.child (v.insertTable pmm t i c page).frames c j = none := by
  rw [child_eq_none, insertTable_frames, if_neg fun hc => hi.ne h hc.1, if_pos rfl]

theorem sameExcept (h : Tables p₀ root v) (hi : Inserts v root p t i c pmm page) :
    SameExcept (Frames.child v.frames) (Frames.child (v.insertTable pmm t i c page).frames) root 3 t i := by
  intro q x j hq hx hne
  have hxc : x ≠ c := by
    intro hxc
    exact hi.notTable h hq (hxc ▸ hx)
  unfold Frames.child
  rw [insertTable_frames, if_neg hne, if_neg hxc]

/-- The tables after it. -/
theorem tableAt_eq (h : Tables p₀ root v) (hi : Inserts v root p t i c pmm page) (hq : q.length ≤ 3) :
    tableAt (v.insertTable pmm t i c page).frames root q =
      if q = p ++ [i] then some c else tableAt v.frames root q := by
  have := hi.length
  exact Lib.nodeAt_insert h.tree hi.table (by omega) (hi.sameExcept h) (child_eq_none.mpr hi.absent)
    (hi.child_entry h) (hi.child_new h) (by omega)

/-- The entries after it. -/
theorem entryAt_eq (h : Tables p₀ root v) (hi : Inserts v root p t i c pmm page) (hq : q.length ≤ 3) :
    entryAt (v.insertTable pmm t i c page).frames root q j =
      if q = p ∧ j = i then some page else if q = p ++ [i] then some {} else entryAt v.frames root q j := by
  have hlen := hi.length
  unfold entryAt
  rw [hi.tableAt_eq h hq]
  by_cases hnew : q = p ++ [i]
  · have hqp : ¬ (q = p ∧ j = i) := by
      intro hqp
      have := congrArg List.length (hqp.1.symm.trans hnew)
      rw [List.length_append, List.length_singleton] at this
      omega
    rw [if_pos hnew, if_neg hqp, if_pos hnew, Option.map_some, insertTable_frames,
      if_neg fun hc => hi.ne h hc.1, if_pos rfl]
  · rw [if_neg hnew, if_neg hnew]
    cases hx : tableAt v.frames root q with
    | none =>
      rw [if_neg]
      · rfl
      · intro hqp
        rw [hqp.1, hi.table] at hx
        cases hx
    | some x =>
      have hxc : x ≠ c := by
        intro hxc
        exact hi.notTable h hq (hxc ▸ hx)
      have hiff : x = t ↔ q = p := by
        constructor
        · intro hxt
          rw [hxt] at hx
          exact h.tree q p t hq (by omega) hx hi.table
        · intro hqp
          rw [hqp, hi.table] at hx
          exact (Option.some.inj hx).symm
      rw [Option.map_some, insertTable_frames, if_neg hxc]
      by_cases hq' : q = p ∧ j = i
      · rw [if_pos hq', if_pos ⟨hiff.mpr hq'.1, hq'.2⟩]
      · rw [if_neg hq', if_neg fun hc => hq' ⟨hiff.mp hc.1, hc.2⟩]
        rfl

/-- The new table is where the entry leads. -/
theorem tableAt_child (h : Tables p₀ root v) (hi : Inserts v root p t i c pmm page) :
    tableAt (v.insertTable pmm t i c page).frames root (p ++ [i]) = some c := by
  have hlen := hi.length
  have hshort : (p ++ [i]).length ≤ 3 := by
    rw [List.length_append, List.length_singleton]
    omega
  rw [hi.tableAt_eq h hshort, if_pos rfl]

theorem entryAt_own (h : Tables p₀ root v) (hi : Inserts v root p t i c pmm page) :
    entryAt (v.insertTable pmm t i c page).frames root p i = some page := by
  have hlen := hi.length
  rw [hi.entryAt_eq h (by omega), if_pos ⟨rfl, rfl⟩]

theorem isChild_iff (h : Tables p₀ root v) (hi : Inserts v root p t i c pmm page) (x : ℕ) :
    IsChild (v.insertTable pmm t i c page).frames root x ↔ IsChild v.frames root x ∨ x = c := by
  have hlen := hi.length
  have hnew : (p ++ [i]).length ≤ 3 := by
    rw [List.length_append, List.length_singleton]
    omega
  constructor
  · intro ⟨q, hne, hq, hx⟩
    rw [hi.tableAt_eq h hq] at hx
    split at hx
    · exact .inr (Option.some.inj hx).symm
    · exact .inl ⟨q, hne, hq, hx⟩
  · intro hx
    rcases hx with ⟨q, hne, hq, hx⟩ | hx
    · refine ⟨q, hne, hq, ?_⟩
      rw [hi.tableAt_eq h hq, if_neg]
      · exact hx
      · intro hqp
        rw [hqp, tableAt_concat hi.table, child_eq_none.mpr hi.absent] at hx
        cases hx
    · refine ⟨p ++ [i], by simp, hnew, ?_⟩
      rw [hi.tableAt_eq h hnew, if_pos rfl, hx]

end Inserts

/-- A new table. -/
theorem tables_insert {pmm : Pmm} (h : Tables p₀ root v) (hi : Inserts v root p t i c pmm page) :
    Tables p₀ root (v.insertTable pmm t i c page) := by
  have hlen := hi.length
  obtain ⟨hsame, -⟩ := Pmm.allocate_ok h.layout hi.allocated
  refine ⟨?_, ?_, h.same.trans hsame, h.root_marked, ?_, ?_, ?_, ?_⟩
  · change Layout pmm.windows
    rw [hsame.1]
    exact h.layout
  · change ∀ w ∈ pmm.windows, _
    rw [hsame.1]
    exact h.aligned
  · exact h.tree.insert hi.table (by omega) (hi.sameExcept h) (child_eq_none.mpr hi.absent)
      (hi.child_entry h) (hi.child_new h) fun q hq => hi.notTable h hq
  · intro x hx
    rcases (hi.isChild_iff h x).mp hx with hx | hx
    · exact h.fresh x hx
    · intro hfree
      exact hi.free h ((h.marks c).mpr (.inl (hx ▸ hfree)))
  · intro x
    change pmm.NotFree x ↔ _
    rw [Pmm.notFree_allocate_one h.layout h.aligned hi.allocated, h.marks, hi.isChild_iff h, or_assoc]
  · intro q k e j e' hq he hpe he' hpe'
    have hq' : (q ++ [k]).length ≤ 3 := by
      rw [List.length_append, List.length_singleton]
      omega
    rw [hi.entryAt_eq h (by omega)] at he
    rw [hi.entryAt_eq h hq'] at he'
    by_cases h1 : q ++ [k] = p ∧ j = i
    · -- the new entry, below the entry above the table
      rw [if_pos h1, Option.some_inj] at he'
      rw [← he']
      have hne : q.length + 1 = p.length := by
        rw [← h1.1, List.length_append, List.length_singleton]
      rw [if_neg, if_neg] at he
      · exact hi.above q k e h1.1.symm he
      · intro hc
        have := congrArg List.length hc
        rw [List.length_append, List.length_singleton] at this
        omega
      · intro hc
        have := congrArg List.length hc.1
        omega
    · rw [if_neg h1] at he'
      split at he'
      · -- the new table is empty
        rw [← Option.some.inj he'] at hpe'
        cases hpe'
      · rename_i h2
        rw [if_neg] at he
        · split at he
          · rw [← Option.some.inj he] at hpe
            cases hpe
          · exact h.dominated q k e j e' hq he hpe he' hpe'
        · intro hc
          exact h2 (by rw [hc.1, hc.2])

/-- An empty table is given back. -/
structure Erases (v : Vmm) (root : ℕ) (p : List (Fin 512)) (t : ℕ) (i : Fin 512) (c : ℕ) : Prop where
  length : p.length ≤ 2
  table : tableAt v.frames root p = some t
  child : Frames.child v.frames t i = some c
  empty : ∀ j : Fin 512, (v.frames c j).present = false

namespace Erases

theorem isChild (he : Erases v root p t i c) : IsChild v.frames root c := by
  have hlen := he.length
  refine ⟨p ++ [i], by simp, ?_, (tableAt_concat he.table).trans he.child⟩
  rw [List.length_append, List.length_singleton]
  omega

/-- The table is marked, and can be released. -/
theorem release (h : Tables p₀ root v) (he : Erases v root p t i c) :
    ∃ pmm, v.pmm.release c 1 = some (.ok (), pmm) ∧ v.pmm.Same pmm ∧
      ∀ x, pmm.NotFree x ↔ v.pmm.NotFree x ∧ x ≠ c := by
  have hc := he.isChild
  obtain ⟨w, hw, j, hj, hpage⟩ := Pmm.exists_of_not_notFree (h.fresh c hc)
  exact Pmm.notFree_release_one h.layout h.aligned (h.same.1 ▸ hw) hj hpage
    ((h.marks c).mpr (.inr hc))

variable {pmm : Pmm}

theorem tableAt_eq (h : Tables p₀ root v) (he : Erases v root p t i c) (hq : q.length ≤ 3) :
    tableAt (Vmm.setEntry { v with pmm } t i {}).frames root q =
      if q = p ++ [i] then none else tableAt v.frames root q := by
  have := he.length
  refine Lib.nodeAt_erase h.tree he.table (by omega)
    (sameExcept_setEntry { v with pmm } root 3 t i {}) he.child
    (fun j => child_eq_none.mpr (he.empty j)) ?_ (by omega)
  rw [child_eq_none, setEntry_frames, if_pos ⟨rfl, rfl⟩]

theorem entryAt_eq (h : Tables p₀ root v) (he : Erases v root p t i c) (hq : q.length ≤ 3) :
    entryAt (Vmm.setEntry { v with pmm } t i {}).frames root q j =
      if q = p ∧ j = i then some {} else if q = p ++ [i] then none else entryAt v.frames root q j := by
  have hlen := he.length
  by_cases hnew : q = p ++ [i]
  · have hqp : ¬ (q = p ∧ j = i) := by
      intro hqp
      have := congrArg List.length (hqp.1.symm.trans hnew)
      rw [List.length_append, List.length_singleton] at this
      omega
    unfold entryAt
    rw [he.tableAt_eq h hq, if_pos hnew, if_neg hqp, if_pos hnew]
    rfl
  · rw [if_neg hnew]
    refine entryAt_setEntry (v := { v with pmm }) h.tree (by omega) he.table hq ?_
    rw [he.tableAt_eq h hq, if_neg hnew]

theorem isChild_iff (h : Tables p₀ root v) (he : Erases v root p t i c) (x : ℕ) :
    IsChild (Vmm.setEntry { v with pmm } t i {}).frames root x ↔ IsChild v.frames root x ∧ x ≠ c := by
  have hlen := he.length
  have hc : tableAt v.frames root (p ++ [i]) = some c := (tableAt_concat he.table).trans he.child
  have hclen : (p ++ [i]).length ≤ 3 := by
    rw [List.length_append, List.length_singleton]
    omega
  constructor
  · intro ⟨q, hne, hq, hx⟩
    rw [he.tableAt_eq h hq] at hx
    split at hx
    · cases hx
    · rename_i hqp
      refine ⟨⟨q, hne, hq, hx⟩, fun hxc => hqp ?_⟩
      rw [hxc] at hx
      exact h.tree q _ c hq hclen hx hc
  · intro ⟨⟨q, hne, hq, hx⟩, hxc⟩
    refine ⟨q, hne, hq, ?_⟩
    rw [he.tableAt_eq h hq, if_neg]
    · exact hx
    · intro hqp
      rw [hqp, hc, Option.some_inj] at hx
      exact hxc hx.symm

end Erases

theorem tables_erase {pmm : Pmm} (h : Tables p₀ root v) (he : Erases v root p t i c)
    (hsame : v.pmm.Same pmm) (hmarks : ∀ x, pmm.NotFree x ↔ v.pmm.NotFree x ∧ x ≠ c) :
    Tables p₀ root (Vmm.setEntry { v with pmm } t i {}) := by
  have hlen := he.length
  have hc := he.isChild
  refine ⟨?_, ?_, h.same.trans hsame, h.root_marked, ?_, ?_, ?_, ?_⟩
  · change Layout pmm.windows
    rw [hsame.1]
    exact h.layout
  · change ∀ w ∈ pmm.windows, _
    rw [hsame.1]
    exact h.aligned
  · refine h.tree.erase he.table (by omega) (sameExcept_setEntry { v with pmm } root 3 t i {}) he.child
      (fun j => child_eq_none.mpr (he.empty j)) ?_
    rw [child_eq_none, setEntry_frames, if_pos ⟨rfl, rfl⟩]
  · intro x hx
    exact h.fresh x ((he.isChild_iff h x).mp hx).1
  · intro x
    change pmm.NotFree x ↔ _
    rw [hmarks, h.marks, he.isChild_iff h]
    constructor
    · intro ⟨hx, hne⟩
      exact hx.imp_right fun hx => ⟨hx, hne⟩
    · intro hx
      refine ⟨hx.imp_right And.left, fun hxc => ?_⟩
      rcases hx with hx | hx
      · exact h.fresh c hc (hxc ▸ hx)
      · exact hx.2 hxc
  · intro q k e j e' hq hent hpe hent' hpe'
    have hq' : (q ++ [k]).length ≤ 3 := by
      rw [List.length_append, List.length_singleton]
      omega
    rw [he.entryAt_eq h (by omega)] at hent
    rw [he.entryAt_eq h hq'] at hent'
    split at hent
    · rw [← Option.some.inj hent] at hpe
      cases hpe
    · split at hent
      · cases hent
      · split at hent'
        · rw [← Option.some.inj hent'] at hpe'
          cases hpe'
        · split at hent'
          · cases hent'
          · exact h.dominated q k e j e' hq hent hpe hent' hpe'

end Frames

/-! ### Map -/

section Map

variable {p₀ : Pmm} {root : ℕ} {v v' : Vmm} {p q : List (Fin 512)} {t : ℕ} {i j : Fin 512} {page : Page}

theorem leafAt_eq (frames : Frames) (root : ℕ) (q : List (Fin 512)) (j : Fin 512) :
    leafAt frames root q j =
      (entryAt frames root q j).bind fun e => if e.present then some e else none := by
  unfold leafAt entryAt
  cases tableAt frames root q with
  | none => rfl
  | some x => rfl

theorem leafAt_congr {frames frames' : Frames}
    (h : entryAt frames' root q j = entryAt frames root q j) :
    leafAt frames' root q j = leafAt frames root q j := by
  rw [leafAt_eq, leafAt_eq, h]

theorem leafAt_of_none {frames : Frames} (h : tableAt frames root q = none) :
    leafAt frames root q j = none := by
  unfold leafAt
  rw [h]
  rfl

/-- A table whose entries stay as they are stays filled. -/
theorem Filled.congr {frames frames' : Frames} (h : Filled frames root q)
    (htable : tableAt frames' root q = tableAt frames root q)
    (hentry : ∀ j, entryAt frames' root q j = entryAt frames root q j) : Filled frames' root q := by
  intro x hx
  rw [htable] at hx
  obtain ⟨j, e, he, hpe⟩ := h x hx
  exact ⟨j, e, (hentry j).trans he, hpe⟩

theorem Tables.congr (h : Tables p₀ root v) (hpmm : v'.pmm = v.pmm) (hframes : v'.frames = v.frames) :
    Tables p₀ root v' := by
  refine ⟨?_, ?_, ?_, h.root_marked, ?_, ?_, ?_, ?_⟩
  · rw [hpmm]
    exact h.layout
  · rw [hpmm]
    exact h.aligned
  · rw [hpmm]
    exact h.same
  · rw [hframes]
    exact h.tree
  · rw [hframes]
    exact h.fresh
  · rw [hpmm, hframes]
    exact h.marks
  · rw [hframes]
    exact h.dominated

/-- An allocation that fails. -/
theorem tables_pmm {pmm : Pmm} (h : Tables p₀ root v) (hsame : v.pmm.Same pmm)
    (hmem : pmm.mem = v.pmm.mem) : Tables p₀ root { v with pmm } := by
  have hfree : ∀ x, pmm.NotFree x ↔ v.pmm.NotFree x := by
    intro x
    unfold Pmm.NotFree
    rw [hsame.1, hmem]
  refine ⟨?_, ?_, h.same.trans hsame, h.root_marked, h.tree, h.fresh, ?_, h.dominated⟩
  · change Layout pmm.windows
    rw [hsame.1]
    exact h.layout
  · change ∀ w ∈ pmm.windows, _
    rw [hsame.1]
    exact h.aligned
  · intro x
    exact (hfree x).trans (h.marks x)

/-- What `map` has done to the tables, from the table at `p` on, where the page
is at the index `i` of the table at `target`. -/
structure MapDone (root : ℕ) (p target : List (Fin 512)) (i : Fin 512) (page : Page) (v v' : Vmm)
    (res : Except String Unit) : Prop where
  keeps : ∀ q x, q.length ≤ 3 → tableAt v.frames root q = some x → tableAt v'.frames root q = some x
  leaf_ok : res = .ok () → ∀ q j, q.length = 3 → leafAt v'.frames root q j =
    if q = target ∧ j = i then some page else leafAt v.frames root q j
  leaf_error : res ≠ .ok () → ∀ q j, q.length = 3 →
    leafAt v'.frames root q j = leafAt v.frames root q j
  filled : res = .ok () →
    (∀ q, q ≠ [] → q ≠ p → q.length ≤ 3 → Filled v.frames root q) →
    ∀ q, q ≠ [] → q.length ≤ 3 → Filled v'.frames root q

/-- A change above the last level comes first. -/
theorem MapDone.after {v₁ : Vmm} {target : List (Fin 512)} {k : Fin 512} {res : Except String Unit}
    (h : MapDone root (p ++ [i]) target k page v₁ v' res)
    (hkeeps : ∀ q x, q.length ≤ 3 → tableAt v.frames root q = some x →
      tableAt v₁.frames root q = some x)
    (hleaf : ∀ q j, q.length = 3 → leafAt v₁.frames root q j = leafAt v.frames root q j)
    (hself : Filled v₁.frames root p)
    (hfilled : ∀ q, q ≠ p → q ≠ p ++ [i] → q.length ≤ 3 → Filled v.frames root q →
      Filled v₁.frames root q) : MapDone root p target k page v v' res where
  keeps := fun q x hq hx => h.keeps q x hq (hkeeps q x hq hx)
  leaf_ok := by
    intro hok q j hq
    rw [h.leaf_ok hok q j hq, hleaf q j hq]
  leaf_error := by
    intro herr q j hq
    rw [h.leaf_error herr q j hq, hleaf q j hq]
  filled := by
    intro hok hall
    apply h.filled hok
    intro q hne hqp hq
    by_cases hq' : q = p
    · exact hq' ▸ hself
    · exact hfilled q hq' hqp hq (hall q hne hq' hq)

/-- What is not below `p` is not below a child of `p` either. -/
theorem not_below_child {q : List (Fin 512)} (h : p <+: q → q = p) : ¬ p ++ [i] <+: q := by
  intro hchild
  have hqp : q = p := h ((List.prefix_append p [i]).trans hchild)
  have hlen := hchild.length_le
  rw [hqp, List.length_append, List.length_singleton] at hlen
  omega

theorem above_of_entry {frames : Frames} {e : Page} (he : entryAt frames root p i = some e)
    (hbelow : page.Below e) : Above frames root (p ++ [i]) page := by
  intro p' i' e' hpath he'
  obtain ⟨hp, hi⟩ := List.append_inj' hpath rfl
  rw [← hp, ← (List.cons.inj hi).1, he, Option.some_inj] at he'
  exact he' ▸ hbelow

/-- The entry with the rights of `page` added. -/
def widened (e page : Page) : Page :=
  { e with writeable := page.writeable || e.writeable, user := page.user || e.user }

theorem widened_below (e page : Page) : e.Below (widened e page) ∧ page.Below (widened e page) := by
  unfold Page.Below widened
  dsimp only
  simp only [Bool.or_eq_true]
  exact ⟨⟨.inr, .inr⟩, ⟨.inl, .inl⟩⟩

theorem above_widened (h : Tables p₀ root v) (hp : p.length ≤ 2) (ht : tableAt v.frames root p = some t)
    (hpresent : (v.frames t i).present = true) (habove : Above v.frames root p page) :
    Above v.frames root p (widened (v.frames t i) page) := by
  intro p' i' e hpath he
  have hpage := habove p' i' e hpath he
  -- the entry above is present, so it dominates this one
  rw [hpath] at ht hp
  rw [List.length_append, List.length_singleton] at hp
  obtain ⟨s, hs, rfl⟩ := Option.map_eq_some_iff.mp he
  rw [tableAt_concat hs] at ht
  have hentry : entryAt v.frames root (p' ++ [i']) i = some (v.frames t i) :=
    entryAt_of_some ((tableAt_concat hs).trans ht)
  have hold := h.dominated p' i' _ i _ (by omega) he (child_eq_some.mp ht).1 hentry hpresent
  unfold Page.Below widened
  dsimp only
  simp only [Bool.or_eq_true]
  exact ⟨fun hu => hu.elim hpage.1 hold.1, fun hw => hw.elim hpage.2 hold.2⟩

/-- A new table, then the rest. -/
theorem mapDone_insert {v₁ : Vmm} {pmm : Pmm} {c : ℕ} {e : Page} (h : Tables p₀ root v)
    (hi : Inserts v root p t i c pmm e) (hv₁ : v₁ = v.insertTable pmm t i c e)
    {target : List (Fin 512)} {k : Fin 512} {res : Except String Unit}
    (hrest : MapDone root (p ++ [i]) target k page v₁ v' res) :
    MapDone root p target k page v v' res := by
  have hlen := hi.length
  rw [hv₁] at hrest
  refine hrest.after ?_ ?_ ?_ ?_
  · intro q x hq hx
    rw [hi.tableAt_eq h hq, if_neg]
    · exact hx
    · intro hqp
      rw [hqp, tableAt_concat hi.table, child_eq_none.mpr hi.absent] at hx
      cases hx
  · intro q j hq
    by_cases hqp : q = p ++ [i]
    · rw [leafAt_eq, hi.entryAt_eq h (by omega), if_neg, if_pos hqp, leafAt_of_none]
      · rfl
      · rw [hqp, tableAt_concat hi.table, child_eq_none.mpr hi.absent]
      · intro hc
        rw [hc.1] at hq
        omega
    · apply leafAt_congr
      rw [hi.entryAt_eq h (by omega), if_neg, if_neg hqp]
      intro hc
      rw [hc.1] at hq
      omega
  · intro x _
    exact ⟨i, e, by rw [hi.entryAt_eq h (by omega), if_pos ⟨rfl, rfl⟩], hi.present⟩
  · intro q hqp hqp' hq hfilled
    refine hfilled.congr ?_ fun j => ?_
    · rw [hi.tableAt_eq h hq, if_neg hqp']
    · rw [hi.entryAt_eq h hq, if_neg fun hc => hqp hc.1, if_neg hqp']

/-- More rights, then the rest. -/
theorem mapDone_widen {e : Page} (h : Tables p₀ root v) (hp : p.length ≤ 2)
    (ht : tableAt v.frames root p = some t) (hpresent : (v.frames t i).present = true)
    (he : e.present = true) (haddr : e.address = (v.frames t i).address)
    {target : List (Fin 512)} {k : Fin 512} {res : Except String Unit}
    (hrest : MapDone root (p ++ [i]) target k page (v.setEntry t i e) v' res) :
    MapDone root p target k page v v' res := by
  have htable := tableAt_widen v root (he.trans hpresent.symm) haddr
  have hentry : ∀ q j, q.length ≤ 3 → entryAt (v.setEntry t i e).frames root q j =
      if q = p ∧ j = i then some e else entryAt v.frames root q j := fun q j hq =>
    entryAt_setEntry h.tree (by omega) ht hq (htable q)
  refine hrest.after ?_ ?_ ?_ ?_
  · intro q x _ hx
    rw [htable]
    exact hx
  · intro q j hq
    apply leafAt_congr
    rw [hentry q j (by omega), if_neg]
    intro hc
    rw [hc.1] at hq
    omega
  · intro x _
    exact ⟨i, e, by rw [hentry p i (by omega), if_pos ⟨rfl, rfl⟩], he⟩
  · intro q hqp _ hq hfilled
    refine hfilled.congr (htable q) fun j => ?_
    rw [hentry q j hq, if_neg fun hc => hqp hc.1]

/-- The entry of the last level. -/
theorem mapDone_leaf (h : Tables p₀ root v) (hp : p.length = 3)
    (ht : tableAt v.frames root p = some t) (hpage : page.present = true) :
    MapDone root p p i page v (v.install t i page) (.ok ()) := by
  have htable : ∀ q, q.length ≤ 3 → tableAt (v.install t i page).frames root q =
      tableAt v.frames root q := fun q hq => tableAt_setLeaf h hp ht i page hq
  have hentry : ∀ q j, q.length ≤ 3 → entryAt (v.install t i page).frames root q j =
      if q = p ∧ j = i then some page else entryAt v.frames root q j := fun q j hq =>
    entryAt_setEntry h.tree (by omega) ht hq (tableAt_setLeaf h hp ht i page hq)
  refine ⟨?_, ?_, fun herr => absurd rfl herr, ?_⟩
  · intro q x hq hx
    rw [htable q hq]
    exact hx
  · intro _ q j hq
    rw [leafAt_eq, hentry q j (by omega)]
    split
    · rw [Option.bind_some, if_pos hpage]
    · rw [← leafAt_eq]
  · intro _ hall q hne hq
    by_cases hqp : q = p
    · intro x _
      rw [hqp]
      exact ⟨i, page, by rw [hentry p i (by omega), if_pos ⟨rfl, rfl⟩], hpage⟩
    · refine (hall q hne hqp hq).congr (htable q hq) fun j => ?_
      rw [hentry q j hq, if_neg fun hc => hqp hc.1]

/-- **`map`**, from the table at `p` on. -/
theorem map_spec {vaddr : ℕ} (hpage : page.present = true) : ∀ {level : ℕ} {p : List (Fin 512)} {t : ℕ}
    {v v' : Vmm} {res : Except String Unit}, Tables p₀ root v → p.length + level = 3 →
    tableAt v.frames root p = some t → Above v.frames root p page →
    Vmm.mapPage vaddr page (level + 1) t v = (res, v') →
    Tables p₀ root v' ∧
      MapDone root p (p ++ slots vaddr (level + 1)) (slot 1 vaddr) page v v' res
  | 0, p, t, v, v', res, h, hp, ht, habove, hmap => by
    unfold Vmm.mapPage at hmap
    simp only [Prod.mk.injEq] at hmap
    rw [← hmap.1, ← hmap.2]
    have hleaf := mapDone_leaf (i := slot 1 vaddr) h (by omega) ht hpage
    have htables : Tables p₀ root (v.setEntry t (slot 1 vaddr) page) :=
      tables_setLeaf h (by omega) ht fun _ => habove
    rw [slots, List.append_nil]
    exact ⟨htables.congr rfl rfl, hleaf⟩
  | level + 1, p, t, v, v', res, h, hp, ht, habove, hmap => by
    have hlen : p.length ≤ 2 := by omega
    have hlen' : (p ++ [slot (level + 2) vaddr]).length + level = 3 := by
      rw [List.length_append, List.length_singleton]
      omega
    rw [path_cons]
    unfold Vmm.mapPage at hmap
    dsimp only at hmap
    split at hmap
    · rename_i habsent
      split at hmap
      · -- no frame
        rename_i e pmm ha
        obtain ⟨hsame, hmem, -⟩ := Pmm.allocate_error ha
        simp only [Prod.mk.injEq] at hmap
        rw [← hmap.1, ← hmap.2]
        refine ⟨tables_pmm h hsame hmem, fun _ _ _ hx => hx, fun hok => ?_, fun _ _ _ _ => rfl, fun hok => ?_⟩
        · cases hok
        · cases hok
      · rename_i c pmm ha
        have hi : Inserts v root p t (slot (level + 2) vaddr) c pmm
            ⟨true, page.writeable, page.user, c / 4096⟩ :=
          ⟨hlen, ht, habsent, ha, rfl, rfl, habove⟩
        have hchild := hi.child_entry h
        obtain ⟨htables, hrest⟩ := map_spec hpage (tables_insert h hi) hlen' (hi.tableAt_child h)
          (above_of_entry (hi.entryAt_own h) ⟨id, id⟩) ((child_eq_some.mp hchild).2 ▸ hmap)
        exact ⟨htables, mapDone_insert h hi rfl hrest⟩
    · rename_i hpresent
      have hpresent' : (v.frames t (slot (level + 2) vaddr)).present = true :=
        (Bool.not_eq_false _).mp hpresent
      have hmore := widened_below (v.frames t (slot (level + 2) vaddr)) page
      have habove' := above_widened h hlen ht hpresent' habove
      have h₁ : Tables p₀ root (v.setEntry t (slot (level + 2) vaddr)
          (widened (v.frames t (slot (level + 2) vaddr)) page)) :=
        tables_widen h hlen ht hpresent' hpresent' rfl hmore.1 habove'
      have hsame : ∀ q, tableAt (v.setEntry t (slot (level + 2) vaddr)
          (widened (v.frames t (slot (level + 2) vaddr)) page)).frames root q = tableAt v.frames root q :=
        tableAt_widen v root rfl rfl
      have htable : tableAt (v.setEntry t (slot (level + 2) vaddr)
          (widened (v.frames t (slot (level + 2) vaddr)) page)).frames root
          (p ++ [slot (level + 2) vaddr]) = some ((v.frames t (slot (level + 2) vaddr)).address * 4096) := by
        rw [hsame, tableAt_concat ht, child_eq_some]
        exact ⟨hpresent', rfl⟩
      have hentry : entryAt (v.setEntry t (slot (level + 2) vaddr)
          (widened (v.frames t (slot (level + 2) vaddr)) page)).frames root p (slot (level + 2) vaddr) =
          some (widened (v.frames t (slot (level + 2) vaddr)) page) := by
        rw [entryAt_setEntry h.tree (by omega) ht (by omega) (hsame p),
          if_pos ⟨rfl, rfl⟩]
      have hframe := setEntry_frames v t (slot (level + 2) vaddr)
        (widened (v.frames t (slot (level + 2) vaddr)) page) t (slot (level + 2) vaddr)
      rw [if_pos ⟨rfl, rfl⟩] at hframe
      have hmap' : Vmm.mapPage vaddr page (level + 1)
          ((v.frames t (slot (level + 2) vaddr)).address * 4096)
          (v.setEntry t (slot (level + 2) vaddr) (widened (v.frames t (slot (level + 2) vaddr)) page)) =
          (res, v') := by
        rw [← hmap]
        change _ = Vmm.mapPage vaddr page (level + 1) (((v.setEntry t (slot (level + 2) vaddr)
          (widened (v.frames t (slot (level + 2) vaddr)) page)).frames t
            (slot (level + 2) vaddr)).address * 4096) _
        rw [hframe]
        rfl
      obtain ⟨htables, hrest⟩ := map_spec hpage h₁ hlen' htable
        (above_of_entry hentry hmore.2) hmap'
      exact ⟨htables, mapDone_widen (e := widened (v.frames t (slot (level + 2) vaddr)) page)
        h hlen ht hpresent' hpresent' rfl hrest⟩

end Map

/-! ### Unmap -/

section Unmap

variable {p₀ : Pmm} {root : ℕ} {v v' : Vmm} {p q target : List (Fin 512)} {t : ℕ} {i k : Fin 512}

/-- What `unmap` has done to the tables, from the table at `p` on, where the
page is at the index `k` of the table at `target`. -/
structure UnmapDone (root : ℕ) (p target : List (Fin 512)) (k : Fin 512) (v v' : Vmm) : Prop where
  sub : ∀ q x, q.length ≤ 3 → tableAt v'.frames root q = some x → tableAt v.frames root q = some x
  kept : ∀ q, q.length ≤ 3 → (p <+: q → q = p) → tableAt v'.frames root q = tableAt v.frames root q
  entries : ∀ q j, q.length ≤ 3 → ¬ p <+: q → entryAt v'.frames root q j = entryAt v.frames root q j
  leaf : ∀ q j, q.length = 3 → leafAt v'.frames root q j =
    if q = target ∧ j = k then none else leafAt v.frames root q j
  removed : ∀ q x, q.length ≤ 3 → tableAt v.frames root q = some x → tableAt v'.frames root q = none →
    ∀ j : Fin 512, (v'.frames x j).present = false
  filled : (∀ q, q ≠ [] → q.length ≤ 3 → Filled v.frames root q) →
    ∀ q, q ≠ [] → q ≠ p → q.length ≤ 3 → Filled v'.frames root q

theorem anyPresent_iff (v : Vmm) (t : ℕ) :
    v.anyPresent t = true ↔ ∃ j : Fin 512, (v.frames t j).present = true := by
  unfold Vmm.anyPresent
  rw [List.any_eq_true]
  constructor
  · intro ⟨j, hj, hpresent⟩
    exact ⟨⟨j, List.mem_range.mp hj⟩, hpresent⟩
  · intro ⟨j, hpresent⟩
    exact ⟨j, List.mem_range.mpr j.isLt, hpresent⟩

/-- The entry of the last level is cleared. -/
theorem unmapDone_leaf (h : Tables p₀ root v) (hp : p.length = 3)
    (ht : tableAt v.frames root p = some t) : UnmapDone root p p i v (v.setEntry t i {}) := by
  have htable : ∀ q, q.length ≤ 3 → tableAt (v.setEntry t i {}).frames root q =
      tableAt v.frames root q := fun q hq => tableAt_setLeaf h hp ht i {} hq
  have hentry : ∀ q j, q.length ≤ 3 → entryAt (v.setEntry t i {}).frames root q j =
      if q = p ∧ j = i then some {} else entryAt v.frames root q j := fun q j hq =>
    entryAt_setEntry h.tree (by omega) ht hq (htable q hq)
  refine ⟨?_, fun q hq _ => htable q hq, ?_, ?_, ?_, ?_⟩
  · intro q x hq hx
    rw [← htable q hq]
    exact hx
  · intro q j hq hpre
    have hqp : q ≠ p := fun hc => hpre (hc ▸ List.prefix_refl _)
    rw [hentry q j hq, if_neg fun hc => hqp hc.1]
  · intro q j hq
    rw [leafAt_eq, hentry q j (by omega)]
    split
    · rfl
    · rw [← leafAt_eq]
  · intro q x hq hx hnone
    rw [htable q hq, hx] at hnone
    cases hnone
  · intro hall q hne hqp hq
    refine (hall q hne hq).congr (htable q hq) fun j => ?_
    rw [hentry q j hq, if_neg fun hc => hqp hc.1]

/-- The table below still has an entry. -/
theorem UnmapDone.stop (h : UnmapDone root (p ++ [i]) target k v v') {j : Fin 512} {e : Page}
    (he : entryAt v'.frames root (p ++ [i]) j = some e) (hpresent : e.present = true) :
    UnmapDone root p target k v v' where
  sub := h.sub
  kept := fun q hq hpre => h.kept q hq fun hpre' => absurd hpre' (not_below_child hpre)
  entries := fun q j hq hpre => h.entries q j hq fun hpre' =>
    hpre ((List.prefix_append p [i]).trans hpre')
  leaf := h.leaf
  removed := h.removed
  filled := by
    intro hall q hne hqp hq
    by_cases hq' : q = p ++ [i]
    · intro x _
      exact ⟨j, e, hq' ▸ he, hpresent⟩
    · exact h.filled hall q hne hq' hq

/-- The table below has become empty, and is given back. -/
theorem UnmapDone.erase {v₁ : Vmm} {pmm : Pmm} {c : ℕ} (h : UnmapDone root (p ++ [i]) target k v v₁)
    (hT : Tables p₀ root v₁) (he : Erases v₁ root p t i c) :
    UnmapDone root p target k v (Vmm.setEntry { v₁ with pmm } t i {}) where
  sub := by
    intro q x hq hx
    rw [he.tableAt_eq hT hq] at hx
    split at hx
    · cases hx
    · exact h.sub q x hq hx
  kept := by
    intro q hq hpre
    have hq' : q ≠ p ++ [i] := fun hc =>
      not_below_child (i := i) hpre (hc ▸ List.prefix_refl q)
    rw [he.tableAt_eq hT hq, if_neg hq']
    exact h.kept q hq fun hpre' => absurd hpre' (not_below_child hpre)
  entries := by
    intro q j hq hpre
    have hqp : q ≠ p := fun hc => hpre (hc ▸ List.prefix_refl _)
    have hqp' : q ≠ p ++ [i] := fun hc => hpre (hc ▸ List.prefix_append p [i])
    rw [he.entryAt_eq hT hq, if_neg fun hc => hqp hc.1, if_neg hqp']
    exact h.entries q j hq fun hpre' => hpre ((List.prefix_append p [i]).trans hpre')
  leaf := by
    intro q j hq
    have hlen := he.length
    have hqp : q ≠ p := fun hc => by
      rw [hc] at hq
      omega
    rw [← h.leaf q j hq]
    by_cases hq' : q = p ++ [i]
    · have htable : tableAt v₁.frames root (p ++ [i]) = some c := (tableAt_concat he.table).trans he.child
      rw [hq', leafAt_of_none, leafAt_eq, entryAt_of_some htable, Option.bind_some, if_neg]
      · exact Bool.eq_false_iff.mp (he.empty j)
      · rw [he.tableAt_eq hT (hq' ▸ hq.le), if_pos rfl]
    · apply leafAt_congr
      rw [he.entryAt_eq hT hq.le, if_neg fun hc => hqp hc.1, if_neg hq']
  removed := by
    intro q x hq hx hnone j
    have habsent : (v₁.frames x j).present = false := by
      cases hx₁ : tableAt v₁.frames root q with
      | none => exact h.removed q x hq hx hx₁ j
      | some y =>
        rw [he.tableAt_eq hT hq] at hnone
        split at hnone
        · rename_i hq'
          have hy := h.sub q y hq hx₁
          rw [hx, Option.some_inj] at hy
          rw [hq', tableAt_concat he.table, he.child, Option.some_inj] at hx₁
          rw [hy, ← hx₁]
          exact he.empty j
        · rw [hx₁] at hnone
          cases hnone
    rw [setEntry_frames]
    split
    · rfl
    · exact habsent
  filled := by
    intro hall q hne hqp hq
    by_cases hq' : q = p ++ [i]
    · intro x hx
      rw [he.tableAt_eq hT hq, if_pos hq'] at hx
      cases hx
    · refine (h.filled hall q hne hq' hq).congr ?_ fun j => ?_
      · rw [he.tableAt_eq hT hq, if_neg hq']
      · rw [he.entryAt_eq hT hq, if_neg fun hc => hqp hc.1, if_neg hq']

/-- **`unmap`**, from the table at `p` on: it changes nothing, or it does its
work; the frame it gives back is always marked. -/
theorem unmap_spec (vaddr : ℕ) : ∀ {level : ℕ} {p : List (Fin 512)} {t : ℕ} {v : Vmm},
    Tables p₀ root v → p.length + level = 3 → tableAt v.frames root p = some t →
    ∃ res v', Vmm.unmapPage vaddr false (level + 1) t v = some (res, v') ∧ Tables p₀ root v' ∧
      (res = .ok () ∧ UnmapDone root p (p ++ slots vaddr (level + 1)) (slot 1 vaddr) v v' ∨
        (∃ e, res = .error e) ∧ v' = v)
  | 0, p, t, v, h, hp, ht => by
    refine ⟨.ok (), v.setEntry t (slot 1 vaddr) {}, rfl, tables_setLeaf h (by omega) ht
      fun hpresent => absurd hpresent Bool.false_ne_true, .inl ⟨rfl, ?_⟩⟩
    rw [slots, List.append_nil]
    exact unmapDone_leaf h (by omega) ht
  | level + 1, p, t, v, h, hp, ht => by
    have hlen' : (p ++ [slot (level + 2) vaddr]).length + level = 3 := by
      rw [List.length_append, List.length_singleton]
      omega
    rw [path_cons]
    unfold Vmm.unmapPage
    dsimp only
    split
    · exact ⟨_, v, rfl, h, .inr ⟨⟨_, rfl⟩, rfl⟩⟩
    · rename_i hpresent
      rw [if_neg fun hc => Bool.false_ne_true hc.1]
      have hchild : Frames.child v.frames t (slot (level + 2) vaddr) =
          some ((v.frames t (tableIndex (level + 2) vaddr)).address * 4096) :=
        child_eq_some.mpr ⟨(Bool.not_eq_false _).mp hpresent, rfl⟩
      obtain ⟨res, v₁, hrec, hT, hdone⟩ := unmap_spec vaddr h hlen' ((tableAt_concat ht).trans hchild)
      rw [hrec]
      rcases hdone with ⟨rfl, hdone⟩ | ⟨⟨e, rfl⟩, rfl⟩
      · dsimp only
        have hpre : ¬ (p ++ [slot (level + 2) vaddr]) <+: p := by
          intro hc
          have := hc.length_le
          rw [List.length_append, List.length_singleton] at this
          omega
        have ht₁ : tableAt v₁.frames root p = some t := by
          rw [hdone.kept p (by omega) fun hc => absurd hc hpre]
          exact ht
        have hentry : v₁.frames t (slot (level + 2) vaddr) = v.frames t (slot (level + 2) vaddr) := by
          have := hdone.entries p (slot (level + 2) vaddr) (by omega) hpre
          rw [entryAt_of_some ht₁, entryAt_of_some ht] at this
          exact Option.some.inj this
        have hchild₁ : Frames.child v₁.frames t (slot (level + 2) vaddr) =
            some ((v₁.frames t (slot (level + 2) vaddr)).address * 4096) := by
          rw [child_eq_some, hentry]
          exact ⟨(child_eq_some.mp hchild).1, rfl⟩
        split
        · rename_i hany
          obtain ⟨j, hj⟩ := (anyPresent_iff v₁ _).mp hany
          exact ⟨.ok (), v₁, rfl, hT, .inl ⟨rfl, hdone.stop
            (entryAt_of_some ((tableAt_concat ht₁).trans hchild₁)) hj⟩⟩
        · rename_i hany
          have he : Erases v₁ root p t (slot (level + 2) vaddr)
              ((v₁.frames t (slot (level + 2) vaddr)).address * 4096) := by
            refine ⟨by omega, ht₁, hchild₁, fun j => ?_⟩
            exact Bool.eq_false_iff.mpr fun hj => hany ((anyPresent_iff v₁ _).mpr ⟨j, hj⟩)
          obtain ⟨pmm, hrel, hsame, hmarks⟩ := he.release hT
          refine ⟨.ok (), Vmm.setEntry { v₁ with pmm } t (slot (level + 2) vaddr) {}, ?_,
            tables_erase hT he hsame hmarks, .inl ⟨rfl, hdone.erase hT he⟩⟩
          rw [show tableIndex (level + 2) vaddr = (slot (level + 2) vaddr : ℕ) from rfl, hrel]
          rfl
      · exact ⟨_, _, rfl, h, .inr ⟨⟨e, rfl⟩, rfl⟩⟩

end Unmap

end WingOS
