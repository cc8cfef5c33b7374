/-
# The page table is a map from pages

Runs of `map` and `unmap` on one root table that is empty at the start. Each
call that succeeds changes the map from pages to frames and rights in one
place (`TableOp.apply`), and each call that fails leaves it. The tables refine
that map (`table_refines`): a walk ends at a present entry just where the map
has a page, with its frame and its rights, and the entries above give it all of
them.

The frames of the tables are those taken from the allocator since the start,
and while every `map` succeeds a table is given back just when it has become
empty (`frames_of_tables`).

Key definitions: `TableOp`, `tableStep`, `Start`, `Translates`.
Key theorems: `effective_eq`, `physicalAddr_eq_ok`, `inv_tableStep`,
`table_refines`, `frames_of_tables`.
-/
import WingOS.PageTableSpec
import WingOS.Lib.Run

namespace WingOS

open Lib (nodeAt run Meets)

/-! ### Walks -/

section Walks

variable {p₀ : Pmm} {root : ℕ} {v : Vmm} {p : List (Fin 512)} {t level : ℕ} {e : Page}

theorem leafAt_eq_some {frames : Frames} {i : Fin 512} : leafAt frames root p i = some e ↔
    ∃ t, tableAt frames root p = some t ∧ frames t i = e ∧ e.present = true := by
  unfold leafAt
  rw [Option.bind_eq_some_iff]
  constructor
  · intro ⟨t, ht, he⟩
    split at he
    · rename_i hpresent
      rw [Option.some_inj] at he
      exact ⟨t, ht, he, he ▸ hpresent⟩
    · cases he
  · intro ⟨t, ht, he, hpresent⟩
    refine ⟨t, ht, ?_⟩
    rw [he, if_pos hpresent]

/-- The page at the end of a walk has no right that an entry above it lacks. -/
theorem leaf_below (h : Tables p₀ root v) (vaddr : ℕ) : ∀ {level : ℕ} {p : List (Fin 512)} {t : ℕ},
    p.length + (level + 1) = 3 → tableAt v.frames root p = some t →
    leafAt v.frames root (p ++ slots vaddr (level + 2)) (slot 1 vaddr) = some e →
    (v.frames t (slot (level + 2) vaddr)).present = true ∧ e.Below (v.frames t (slot (level + 2) vaddr))
  | level, p, t, hp, ht, he => by
    obtain ⟨x, hx, hxe, hpresent⟩ := leafAt_eq_some.mp he
    rw [path_cons] at hx he
    have hup : (v.frames t (slot (level + 2) vaddr)).present = true := by
      unfold tableAt at hx
      rw [Lib.nodeAt_append, Option.bind_eq_some_iff] at hx
      obtain ⟨c, hc, -⟩ := hx
      exact (child_eq_some.mp ((tableAt_concat ht).symm.trans hc)).1
    have hc : tableAt v.frames root (p ++ [slot (level + 2) vaddr]) =
        some ((v.frames t (slot (level + 2) vaddr)).address * 4096) :=
      (tableAt_concat ht).trans (child_eq_some.mpr ⟨hup, rfl⟩)
    refine ⟨hup, ?_⟩
    cases level with
    | zero =>
      rw [slots, List.append_nil] at hx
      rw [hx, Option.some_inj] at hc
      exact h.dominated p _ _ (slot 1 vaddr) e (by omega) (entryAt_of_some ht) hup
        ((entryAt_of_some hx).trans (congrArg some hxe)) hpresent
    | succ level =>
      have hlen : (p ++ [slot (level + 3) vaddr]).length + (level + 1) = 3 := by
        rw [List.length_append, List.length_singleton]
        omega
      obtain ⟨hnext, hbelow⟩ := leaf_below h vaddr hlen hc he
      exact hbelow.trans (h.dominated p _ _ _ _ (by omega) (entryAt_of_some ht) hup
        (entryAt_of_some hc) hnext)

/-- The rights along a walk are those of the page at its end. -/
theorem effective_eq (h : Tables p₀ root v) (vaddr : ℕ) : ∀ {level : ℕ} {p : List (Fin 512)} {t : ℕ},
    p.length + level = 3 → tableAt v.frames root p = some t →
    effective v.frames vaddr (level + 1) t =
      (leafAt v.frames root (p ++ slots vaddr (level + 1)) (slot 1 vaddr)).map fun e =>
        (e.user, e.writeable)
  | 0, p, t, hp, ht => by
    unfold effective leafAt
    rw [slots, List.append_nil, ht, Option.bind_some]
    dsimp only
    rw [show tableIndex (0 + 1) vaddr = (slot 1 vaddr : ℕ) from rfl]
    split
    · unfold effective
      simp
    · rfl
  | level + 1, p, t, hp, ht => by
    have hlen : (p ++ [slot (level + 2) vaddr]).length + level = 3 := by
      rw [List.length_append, List.length_singleton]
      omega
    have hbelow := fun e => leaf_below h vaddr (e := e) hp ht
    unfold effective
    dsimp only
    rw [show tableIndex (level + 1 + 1) vaddr = (slot (level + 2) vaddr : ℕ) from rfl]
    split
    · rename_i hpresent
      have hc : tableAt v.frames root (p ++ [slot (level + 2) vaddr]) =
          some ((v.frames t (slot (level + 2) vaddr)).address * 4096) :=
        (tableAt_concat ht).trans (child_eq_some.mpr ⟨hpresent, rfl⟩)
      rw [effective_eq h vaddr hlen hc, ← path_cons, Option.map_map]
      cases he : leafAt v.frames root (p ++ slots vaddr (level + 2)) (slot 1 vaddr) with
      | none => rfl
      | some e =>
        obtain ⟨-, huser, hwriteable⟩ := hbelow e he
        rw [Option.map_some, Option.map_some, Option.some_inj]
        exact Prod.ext (Bool.and_eq_left_iff_imp.mpr huser) (Bool.and_eq_left_iff_imp.mpr hwriteable)
    · rename_i habsent
      cases he : leafAt v.frames root (p ++ slots vaddr (level + 2)) (slot 1 vaddr) with
      | none => rfl
      | some e => exact absurd (hbelow e he).1 habsent

/-- `physical_addr` succeeds just for present user pages that can be written. -/
theorem physicalAddr_eq_ok (h : Tables p₀ root v) (vaddr x : ℕ) :
    ∀ {level : ℕ} {p : List (Fin 512)} {t : ℕ}, p.length + level = 3 →
    tableAt v.frames root p = some t →
    (physicalAddr v.frames vaddr (level + 1) t = .ok x ↔
      ∃ e, leafAt v.frames root (p ++ slots vaddr (level + 1)) (slot 1 vaddr) = some e ∧
        e.user = true ∧ e.writeable = true ∧ e.address * 4096 + vaddr % 4096 = x)
  | 0, p, t, hp, ht => by
    unfold physicalAddr physicalAddr leafAt
    rw [slots, List.append_nil, ht, Option.bind_some]
    dsimp only
    rw [show tableIndex (0 + 1) vaddr = (slot 1 vaddr : ℕ) from rfl]
    cases hpresent : (v.frames t (slot 1 vaddr)).present with
    | false => simp
    | true =>
      cases huser : (v.frames t (slot 1 vaddr)).user with
      | false => simp [huser]
      | true =>
        cases hwriteable : (v.frames t (slot 1 vaddr)).writeable with
        | false => simp [hwriteable]
        | true => simp [huser, hwriteable]
  | level + 1, p, t, hp, ht => by
    have hlen : (p ++ [slot (level + 2) vaddr]).length + level = 3 := by
      rw [List.length_append, List.length_singleton]
      omega
    have hbelow := fun e => leaf_below h vaddr (e := e) hp ht
    unfold physicalAddr
    dsimp only
    rw [show tableIndex (level + 1 + 1) vaddr = (slot (level + 2) vaddr : ℕ) from rfl]
    by_cases hpresent : (v.frames t (slot (level + 2) vaddr)).present = true
    · have hc : tableAt v.frames root (p ++ [slot (level + 2) vaddr]) =
          some ((v.frames t (slot (level + 2) vaddr)).address * 4096) :=
        (tableAt_concat ht).trans (child_eq_some.mpr ⟨hpresent, rfl⟩)
      have hrec := physicalAddr_eq_ok h vaddr x hlen hc
      rw [← path_cons] at hrec
      rw [if_neg (by simp [hpresent]), ← hrec]
      have hrights : physicalAddr v.frames vaddr (level + 1)
          ((v.frames t (slot (level + 2) vaddr)).address * 4096) = .ok x →
          (v.frames t (slot (level + 2) vaddr)).user = true ∧
          (v.frames t (slot (level + 2) vaddr)).writeable = true := by
        intro hok
        obtain ⟨e, he, huser, hwriteable, -⟩ := hrec.mp hok
        exact ⟨(hbelow e he).2.1 huser, (hbelow e he).2.2 hwriteable⟩
      constructor
      · intro hok
        split at hok
        · cases hok
        · split at hok
          · cases hok
          · exact hok
      · intro hok
        rw [if_neg (by simp [(hrights hok).1]), if_neg (by simp [(hrights hok).2])]
        exact hok
    · rw [if_pos (Bool.eq_false_iff.mpr hpresent)]
      constructor
      · intro hok
        cases hok
      · rintro ⟨e, he, -⟩
        exact absurd (hbelow e he).1 hpresent

/-- `_verify` and `physical_addr` make the same tests. -/
theorem verifyAddr_eq_ok (frames : Frames) (vaddr : ℕ) : ∀ level t,
    verifyAddr frames vaddr level t = .ok () ↔ ∃ x, physicalAddr frames vaddr level t = .ok x
  | 0, t => ⟨fun _ => ⟨_, rfl⟩, fun _ => rfl⟩
  | level + 1, t => by
    unfold verifyAddr physicalAddr
    dsimp only
    split
    · exact ⟨nofun, nofun⟩
    · split
      · exact ⟨nofun, nofun⟩
      · split
        · exact ⟨nofun, nofun⟩
        · exact verifyAddr_eq_ok frames vaddr level _

end Walks

/-! ### Runs -/

/-- What a page is mapped to. -/
structure Translation where
  frame : ℕ
  user : Bool
  writeable : Bool
deriving DecidableEq

/-- The calls of `PageTable<4>` on addresses of 48 bits; `map` gets a page of
`page_create`. -/
inductive TableOp
  | map (vaddr : Fin (2 ^ 48)) (flags : PageFlags) (paddr : ℕ)
  | unmap (vaddr : Fin (2 ^ 48))

namespace TableOp

def call (root : ℕ) : TableOp → Vmm → Option (Except String Unit × Vmm)
  | map vaddr flags paddr, v => some (v.mapPage vaddr (pageCreate flags paddr) 4 root)
  | unmap vaddr, v => v.unmapPage vaddr false 4 root

/-- The page a call is about. -/
def page : TableOp → ℕ
  | map vaddr _ _ => vaddr / 4096
  | unmap vaddr => vaddr / 4096

/-- What a call that succeeds puts there. -/
def value : TableOp → Option Translation
  | map _ flags paddr => some ⟨paddr / 4096, flags.user, flags.writeable⟩
  | unmap _ => none

def apply (op : TableOp) (last : ℕ → Option Translation) : ℕ → Option Translation :=
  fun n => if n = op.page then op.value else last n

end TableOp

/-- The tables, and for each page what the last call on it that succeeded has
put there. -/
structure Tracked where
  vm : Vmm
  last : ℕ → Option Translation

/-- One call; `none` when it reaches `unreachable$`. -/
def tableStep (root : ℕ) (s : Tracked) (op : TableOp) : Option Tracked :=
  (op.call root s.vm).map fun
    | (.ok (), vm) => ⟨vm, op.apply s.last⟩
    | (.error _, vm) => ⟨vm, s.last⟩

/-- The start: a root that is in use and has no present entry, and an allocator
made by `Pmm::create`, after any calls. -/
structure Start (root : ℕ) (v : Vmm) : Prop where
  created : ∃ context m p, SectionsDisjoint context ∧ Pmm.create context m = .ok p ∧ p.Same v.pmm
  root_marked : v.pmm.NotFree root
  empty : ∀ i : Fin 512, (v.frames root i).present = false

def Tracked.start (v : Vmm) : Tracked := ⟨v, fun _ => none⟩

def Page.translation (e : Page) : Translation := ⟨e.address, e.user, e.writeable⟩

/-- The present entry at which a walk ends. -/
def walk (frames : Frames) (vaddr root : ℕ) : Option Page :=
  (leafSlot frames vaddr 4 root).bind fun (t, i) =>
    if (frames t i).present then some (frames t i) else none

/-- The walks agree with what was mapped last. -/
structure Translates (root : ℕ) (s : Tracked) (a : ℕ) : Prop where
  leaf : (walk s.vm.frames a root).map Page.translation = s.last (a / 4096)
  rights : effective s.vm.frames a 4 root = (s.last (a / 4096)).map fun tr => (tr.user, tr.writeable)
  physical : ∀ x, physicalAddr s.vm.frames a 4 root = .ok x ↔ ∃ tr, s.last (a / 4096) = some tr ∧
    tr.user = true ∧ tr.writeable = true ∧ tr.frame * 4096 + a % 4096 = x
  verify : verifyAddr s.vm.frames a 4 root = .ok () ↔ ∃ tr, s.last (a / 4096) = some tr ∧
    tr.user = true ∧ tr.writeable = true

/-- The tables are a tree, and their leaves are what was mapped last. -/
structure Tracked.Inv (p₀ : Pmm) (root : ℕ) (s : Tracked) : Prop where
  tables : Tables p₀ root s.vm
  leaves : ∀ a < 2 ^ 48, (leafAt s.vm.frames root (slots a 4) (slot 1 a)).map Page.translation =
    s.last (a / 4096)

section Runs

variable {p₀ : Pmm} {root : ℕ} {v : Vmm} {s s' : Tracked} {op : TableOp}

theorem tableAt_of_empty {frames : Frames} (h : ∀ i : Fin 512, (frames root i).present = false)
    {p : List (Fin 512)} (hp : p ≠ []) : tableAt frames root p = none :=
  Lib.nodeAt_of_childless (fun i => child_eq_none.mpr (h i)) hp

theorem tables_start (h : Start root v) : Tables v.pmm root v := by
  obtain ⟨context, m, p, hsections, hcreate, hsame⟩ := h.created
  have hwindows : v.pmm.windows = Pmm.windowsOf _ _ := hsame.1.trans (Pmm.created hcreate).windows
  have hnone := fun {q} => tableAt_of_empty (p := q) h.empty
  have hchild : ∀ x, ¬ IsChild v.frames root x := by
    intro x ⟨q, hne, _, hq⟩
    rw [hnone hne] at hq
    cases hq
  refine ⟨?_, ?_, Pmm.Same.refl v.pmm, h.root_marked, ?_, fun x hx => absurd hx (hchild x), ?_, ?_⟩
  · rw [hwindows]
    exact Pmm.layout_windowsOf hsections _
  · rw [hwindows]
    exact fun w hw => Pmm.windowsOf_aligned hw
  · have hnil : ∀ q x, tableAt v.frames root q = some x → q = [] := by
      intro q x hq
      by_contra hne
      rw [hnone hne] at hq
      cases hq
    intro q r x _ _ hq hr
    rw [hnil q x hq, hnil r x hr]
  · intro x
    exact ⟨.inl, fun hx => hx.elim id fun hx => absurd hx (hchild x)⟩
  · intro q k e j e' _ _ _ he'
    obtain ⟨x, hx, -⟩ := Option.map_eq_some_iff.mp he'
    rw [hnone (by simp)] at hx
    cases hx

theorem inv_start (h : Start root v) : (Tracked.start v).Inv v.pmm root := by
  refine ⟨tables_start h, fun a _ => ?_⟩
  change Option.map Page.translation (leafAt v.frames root (slots a 4) (slot 1 a)) = none
  rw [leafAt_of_none (tableAt_of_empty h.empty (by simp [slots]))]
  rfl

/-- The entry of a page after a call that succeeded. -/
theorem translation_update (h : s.Inv p₀ root) {vaddr : Fin (2 ^ 48)} {vm : Vmm} {page : Option Page}
    (hpage : op.page = vaddr / 4096) (hvalue : page.map Page.translation = op.value)
    (hleaf : ∀ q j, q.length = 3 → leafAt vm.frames root q j =
      if q = slots vaddr 4 ∧ j = slot 1 vaddr then page else leafAt s.vm.frames root q j)
    {a : ℕ} (ha : a < 2 ^ 48) :
    (leafAt vm.frames root (slots a 4) (slot 1 a)).map Page.translation =
      op.apply s.last (a / 4096) := by
  unfold TableOp.apply
  rw [hleaf _ _ (slots_length a 3), hpage]
  by_cases hsame : a / 4096 = vaddr / 4096
  · rw [if_pos ((same_page_iff ha vaddr.isLt).mpr hsame), if_pos hsame]
    exact hvalue
  · rw [if_neg (mt (same_page_iff ha vaddr.isLt).mp hsame), if_neg hsame]
    exact h.leaves a ha

/-- `map` on the root. -/
theorem map_root {vaddr : ℕ} {page : Page} {res : Except String Unit} {vm : Vmm} (h : Tables p₀ root v)
    (hpage : page.present = true) (hmap : v.mapPage vaddr page 4 root = (res, vm)) :
    Tables p₀ root vm ∧ MapDone root [] (slots vaddr 4) (slot 1 vaddr) page v vm res :=
  map_spec hpage h rfl (tableAt_nil _ _) (fun _ _ _ hp => absurd hp (by simp)) hmap

/-- `unmap` on the root. -/
theorem unmap_root (h : Tables p₀ root v) (vaddr : ℕ) :
    ∃ res vm, v.unmapPage vaddr false 4 root = some (res, vm) ∧ Tables p₀ root vm ∧
      (res = .ok () ∧ UnmapDone root [] (slots vaddr 4) (slot 1 vaddr) v vm ∨
        (∃ e, res = .error e) ∧ vm = v) :=
  unmap_spec vaddr h rfl (tableAt_nil _ _)

theorem tableStep_ok {vm : Vmm} (h : op.call root s.vm = some (.ok (), vm)) :
    tableStep root s op = some ⟨vm, op.apply s.last⟩ := by
  unfold tableStep
  rw [h]
  rfl

theorem tableStep_error {vm : Vmm} {e : String} (h : op.call root s.vm = some (.error e, vm)) :
    tableStep root s op = some ⟨vm, s.last⟩ := by
  unfold tableStep
  rw [h]
  rfl

/-- **One call** keeps the invariant, and does not reach `unreachable$`. -/
theorem inv_tableStep (h : s.Inv p₀ root) (op : TableOp) :
    ∃ s', tableStep root s op = some s' ∧ s'.Inv p₀ root := by
  cases op with
  | map vaddr flags paddr =>
    cases hmap : s.vm.mapPage vaddr (pageCreate flags paddr) 4 root with
    | mk res vm =>
    obtain ⟨htables, hdone⟩ := map_root h.tables rfl hmap
    cases res with
    | error e =>
      refine ⟨_, tableStep_error (congrArg some hmap), htables, fun a ha => ?_⟩
      change (leafAt vm.frames root _ _).map _ = _
      rw [hdone.leaf_error nofun _ _ (slots_length a 3)]
      exact h.leaves a ha
    | ok u =>
      exact ⟨_, tableStep_ok (congrArg some hmap), htables,
        fun a ha => translation_update h rfl rfl (hdone.leaf_ok rfl) ha⟩
  | unmap vaddr =>
    obtain ⟨res, vm, hunmap, htables, hdone⟩ := unmap_root h.tables vaddr
    rcases hdone with ⟨rfl, hdone⟩ | ⟨⟨e, rfl⟩, rfl⟩
    · exact ⟨_, tableStep_ok hunmap, htables,
        fun a ha => translation_update h rfl rfl hdone.leaf ha⟩
    · exact ⟨_, tableStep_error hunmap, h⟩

theorem walk_eq (frames : Frames) (a root : ℕ) :
    walk frames a root = leafAt frames root (slots a 4) (slot 1 a) := by
  unfold walk leafAt
  rw [leafSlot_eq]
  cases tableAt frames root (slots a 4) with
  | none => rfl
  | some t => rfl

/-- What the invariant says about the walks. -/
theorem Tracked.Inv.translates (h : s.Inv p₀ root) {a : ℕ} (ha : a < 2 ^ 48) : Translates root s a := by
  have hlast := h.leaves a ha
  have hphys : ∀ x, physicalAddr s.vm.frames a 4 root = .ok x ↔ ∃ tr, s.last (a / 4096) = some tr ∧
      tr.user = true ∧ tr.writeable = true ∧ tr.frame * 4096 + a % 4096 = x := by
    intro x
    rw [physicalAddr_eq_ok h.tables a x (p := []) rfl (tableAt_nil _ _), ← hlast, List.nil_append]
    constructor
    · intro ⟨e, he, hrest⟩
      exact ⟨e.translation, by rw [he]; rfl, hrest⟩
    · intro ⟨tr, htr, hrest⟩
      obtain ⟨e, he, rfl⟩ := Option.map_eq_some_iff.mp htr
      exact ⟨e, he, hrest⟩
  refine ⟨?_, ?_, hphys, ?_⟩
  · rw [walk_eq]
    exact hlast
  · rw [effective_eq h.tables a (p := []) rfl (tableAt_nil _ _), ← hlast, Option.map_map]
    rfl
  · rw [verifyAddr_eq_ok]
    simp only [hphys]
    constructor
    · intro ⟨x, tr, htr, huser, hwriteable, _⟩
      exact ⟨tr, htr, huser, hwriteable⟩
    · intro ⟨tr, htr, huser, hwriteable⟩
      exact ⟨_, tr, htr, huser, hwriteable, rfl⟩

theorem tableStep_last (hs : tableStep root s op = some s') {n : ℕ} (hn : n ≠ op.page) :
    s'.last n = s.last n := by
  unfold tableStep at hs
  obtain ⟨⟨res, vm⟩, -, rfl⟩ := Option.map_eq_some_iff.mp hs
  cases res with
  | error e => rfl
  | ok u => exact if_neg hn

/-- **The page table is a map from pages.** Every run of `map` and `unmap` from
an empty root gets through, after it every walk agrees with the last call on
its page that succeeded, and no call changes the walk of another page. -/
theorem table_refines (root : ℕ) (v : Vmm) (hstart : Start root v) (ops : List TableOp) :
    ∃ s, run (tableStep root) ops (Tracked.start v) = some s ∧
      (∀ a : Fin (2 ^ 48), Translates root s a) ∧
      ∀ op s', tableStep root s op = some s' → ∀ a : Fin (2 ^ 48), (a : ℕ) / 4096 ≠ op.page →
        (walk s'.vm.frames a root).map Page.translation = (walk s.vm.frames a root).map Page.translation ∧
        effective s'.vm.frames a 4 root = effective s.vm.frames a 4 root := by
  obtain ⟨s, hrun, h⟩ := Lib.run_total_of_meets (P := Tracked.Inv v.pmm root)
    (fun s op h _ => inv_tableStep h op) ops (Lib.meets_true ops _) (inv_start hstart)
  refine ⟨s, hrun, fun a => h.translates a.isLt, fun op s' hs a hpage => ?_⟩
  obtain ⟨s'', hs'', h'⟩ := inv_tableStep h op
  obtain rfl : s' = s'' := Option.some.inj (hs.symm.trans hs'')
  have ht := h.translates a.isLt
  have ht' := h'.translates a.isLt
  have hlast := tableStep_last hs hpage
  exact ⟨by rw [ht.leaf, ht'.leaf, hlast], by rw [ht.rights, ht'.rights, hlast]⟩

/-! ### Frames -/

/-- The call is not a `map` that fails. -/
def MapSucceeds (root : ℕ) (s : Tracked) : TableOp → Prop
  | .map vaddr flags paddr =>
    (s.vm.mapPage vaddr (pageCreate flags paddr) 4 root).1.isOk = true
  | .unmap _ => True

/-- The frame `x` was got from `Pmm::allocate` since the start, and has not been
given to `Pmm::release`. -/
def Taken (p₀ p : Pmm) (x : ℕ) : Prop := ¬ p₀.NotFree x ∧ p.NotFree x

/-- The entry `i` of the table `t` leads to the table `x`. -/
def Parent (frames : Frames) (root t : ℕ) (i : Fin 512) (x : ℕ) : Prop :=
  (∃ p, p.length ≤ 2 ∧ tableAt frames root p = some t) ∧ Frames.child frames t i = some x

/-- No frame is lost, and none is given back too early. -/
structure FramesKept (p₀ : Pmm) (root : ℕ) (s : Tracked) : Prop where
  taken : ∀ x, Taken p₀ s.vm.pmm x ↔ IsChild s.vm.frames root x
  one_parent : ∀ x, IsChild s.vm.frames root x →
    ∃! entry : ℕ × Fin 512, Parent s.vm.frames root entry.1 entry.2 x
  released : ∀ vaddr s', tableStep root s (.unmap vaddr) = some s' →
    ∀ x, IsChild s.vm.frames root x →
      (¬ Taken p₀ s'.vm.pmm x ↔ ∀ i : Fin 512, (s'.vm.frames x i).present = false)

/-- The tables below the root have entries. -/
def AllFilled (root : ℕ) (s : Tracked) : Prop :=
  ∀ q, q ≠ [] → q.length ≤ 3 → Filled s.vm.frames root q

theorem Tables.taken_iff (h : Tables p₀ root v) (x : ℕ) :
    Taken p₀ v.pmm x ↔ IsChild v.frames root x := by
  unfold Taken
  rw [h.marks]
  constructor
  · intro ⟨hfree, hx⟩
    exact hx.resolve_left hfree
  · intro hx
    exact ⟨h.fresh x hx, .inr hx⟩

theorem Tables.one_parent (h : Tables p₀ root v) {x : ℕ} (hx : IsChild v.frames root x) :
    ∃! entry : ℕ × Fin 512, Parent v.frames root entry.1 entry.2 x := by
  obtain ⟨q, hne, hq, hqx⟩ := hx
  obtain ⟨p, i, rfl⟩ : ∃ p i, q = p ++ [i] :=
    ⟨q.dropLast, q.getLast hne, (List.dropLast_concat_getLast hne).symm⟩
  rw [List.length_append, List.length_singleton] at hq
  cases ht : tableAt v.frames root p with
  | none =>
    unfold tableAt at hqx ht
    rw [Lib.nodeAt_concat, ht] at hqx
    cases hqx
  | some t =>
    refine ⟨(t, i), ⟨⟨p, by omega, ht⟩, (tableAt_concat ht).symm.trans hqx⟩, ?_⟩
    intro ⟨u, j⟩ ⟨⟨r, hr, hu⟩, hchild⟩
    have hlen : (r ++ [j]).length ≤ 3 := by
      rw [List.length_append, List.length_singleton]
      omega
    have heq := h.tree (r ++ [j]) (p ++ [i]) x hlen (by simpa using hq)
      ((tableAt_concat hu).trans hchild) hqx
    obtain ⟨rfl, hij⟩ := List.append_inj' heq rfl
    obtain rfl := (List.cons.inj hij).1
    exact Prod.ext (Option.some.inj (hu.symm.trans ht)) rfl

/-- An `unmap` that gets through has done its work, or nothing. -/
theorem unmap_cases (h : s.Inv p₀ root) {vaddr : Fin (2 ^ 48)}
    (hs : tableStep root s (.unmap vaddr) = some s') :
    UnmapDone root [] (slots vaddr 4) (slot 1 vaddr) s.vm s'.vm ∨ s'.vm = s.vm := by
  obtain ⟨res, vm, hunmap, -, hdone⟩ := unmap_root h.tables vaddr
  rcases hdone with ⟨rfl, hdone⟩ | ⟨⟨e, rfl⟩, rfl⟩
  · have hstep : tableStep root s (.unmap vaddr) = _ := tableStep_ok hunmap
    rw [hs, Option.some_inj] at hstep
    rw [hstep]
    exact .inl hdone
  · have hstep : tableStep root s (.unmap vaddr) = _ := tableStep_error hunmap
    rw [hs, Option.some_inj] at hstep
    rw [hstep]
    exact .inr rfl

/-- **One call** leaves no table below the root empty. -/
theorem allFilled_tableStep (h : s.Inv p₀ root) (hfilled : AllFilled root s)
    (hop : MapSucceeds root s op) (hs : tableStep root s op = some s') : AllFilled root s' := by
  cases op with
  | map vaddr flags paddr =>
    cases hmap : s.vm.mapPage vaddr (pageCreate flags paddr) 4 root with
    | mk res vm =>
    change (s.vm.mapPage vaddr (pageCreate flags paddr) 4 root).1.isOk = true at hop
    rw [hmap] at hop
    cases res with
    | error e => cases hop
    | ok u =>
      obtain ⟨-, hdone⟩ := map_root h.tables rfl hmap
      have hstep : tableStep root s (.map vaddr flags paddr) = _ := tableStep_ok (congrArg some hmap)
      rw [hs, Option.some_inj] at hstep
      rw [hstep]
      exact hdone.filled rfl fun q hne _ hq => hfilled q hne hq
  | unmap vaddr =>
    rcases unmap_cases h hs with hdone | hsame
    · exact fun q hne hq => hdone.filled hfilled q hne hne hq
    · unfold AllFilled
      rw [hsame]
      exact hfilled

theorem framesKept (h : s.Inv p₀ root) (hfilled : AllFilled root s) : FramesKept p₀ root s := by
  refine ⟨h.tables.taken_iff, fun x hx => h.tables.one_parent hx, fun vaddr s' hs x hx => ?_⟩
  obtain ⟨s'', hs'', h'⟩ := inv_tableStep h (.unmap vaddr)
  obtain rfl : s' = s'' := Option.some.inj (hs.symm.trans hs'')
  have hfilled' := allFilled_tableStep h hfilled (show MapSucceeds root s (.unmap vaddr) from trivial) hs
  rw [h'.tables.taken_iff]
  constructor
  · intro hgone
    obtain ⟨q, hne, hq, hqx⟩ := hx
    rcases unmap_cases h hs with hdone | hsame
    · refine hdone.removed q x hq hqx ?_
      cases hq' : tableAt s'.vm.frames root q with
      | none => rfl
      | some y =>
        have hy := hdone.sub q y hq hq'
        rw [hqx, Option.some_inj] at hy
        exact absurd ⟨q, hne, hq, hy ▸ hq'⟩ hgone
    · rw [hsame] at hgone
      exact absurd ⟨q, hne, hq, hqx⟩ hgone
  · intro habsent ⟨q, hne, hq, hqx⟩
    obtain ⟨j, e, he, hpresent⟩ := hfilled' q hne hq x hqx
    rw [entryAt_of_some hqx, Option.some_inj] at he
    rw [← he, habsent j] at hpresent
    cases hpresent

/-- **The frames of the tables**, in runs in which no `map` fails. -/
theorem frames_of_tables (root : ℕ) (v : Vmm) (hstart : Start root v) (ops : List TableOp)
    (hops : Meets (tableStep root) (MapSucceeds root) ops (Tracked.start v)) :
    ∃ s, run (tableStep root) ops (Tracked.start v) = some s ∧ FramesKept v.pmm root s := by
  have hfilled : AllFilled root (Tracked.start v) := by
    intro q hne _ x hx
    have hnone : tableAt v.frames root q = none := tableAt_of_empty hstart.empty hne
    exact absurd (hx.symm.trans hnone) nofun
  obtain ⟨s, hrun, h, hfilled⟩ := Lib.run_total_of_meets
    (P := fun s => Tracked.Inv v.pmm root s ∧ AllFilled root s)
    (fun s op ⟨h, hf⟩ hop => by
      obtain ⟨s', hs, h'⟩ := inv_tableStep h op
      exact ⟨s', hs, h', allFilled_tableStep h hf hop hs⟩)
    ops hops ⟨inv_start hstart, hfilled⟩
  exact ⟨s, hrun, framesKept h hfilled⟩

end Runs

/-! ### A small machine -/

/-- One page of the small machine is taken for the root. -/
def smallVmm : Vmm where
  pmm := (Pmm.smallPmm.allocate 1 true).2
  frames := fun _ _ => {}

theorem start_smallVmm : Start 0x108000 smallVmm := by
  have hsections : SectionsDisjoint Pmm.smallMap := ⟨by decide +kernel, by decide +kernel⟩
  have hcreate : Pmm.create Pmm.smallMap (fun _ => 0) = .ok Pmm.smallPmm := rfl
  have hL : Layout Pmm.smallPmm.windows := by
    rw [(Pmm.created hcreate).windows]
    exact Pmm.layout_windowsOf hsections _
  have ha : Pmm.smallPmm.allocate 1 true = (_, smallVmm.pmm) := rfl
  exact ⟨⟨_, _, _, hsections, hcreate, (Pmm.grows_allocate hL ha).1⟩, by decide +kernel, fun _ => rfl⟩

/-- A page is mapped at 4 MiB and unmapped again. -/
def mapAndUnmap : List TableOp := [.map 0x400000 ⟨true, true⟩ 0x200000, .unmap 0x400000]

theorem table_refines_small :
    ∃ s, run (tableStep 0x108000) [.map 0x400000 ⟨true, true⟩ 0x200000] (Tracked.start smallVmm) = some s ∧
      ∀ a : Fin (2 ^ 48), Translates 0x108000 s a := by
  obtain ⟨s, hrun, htranslates, -⟩ := table_refines 0x108000 smallVmm start_smallVmm
    [.map 0x400000 ⟨true, true⟩ 0x200000]
  exact ⟨s, hrun, htranslates⟩

theorem frames_of_tables_small :
    ∃ s, run (tableStep 0x108000) mapAndUnmap (Tracked.start smallVmm) = some s ∧
      FramesKept smallVmm.pmm 0x108000 s := by
  have hmap : (smallVmm.mapPage 0x400000 (pageCreate ⟨true, true⟩ 0x200000) 4 0x108000).1.isOk = true := by
    decide +kernel
  exact frames_of_tables 0x108000 smallVmm start_smallVmm mapAndUnmap
    ⟨hmap, fun _ _ => ⟨trivial, fun _ _ => trivial⟩⟩

end WingOS
