/-
# The frames that a mapping needs

`PageTable::map` takes a frame for each table that is missing on the way to the
page, one after the other. So it succeeds just if that many frames are free
(`mapPage_ok_iff`). Where no table is missing, which is so where the page is
mapped already, it takes no frame and leaves the tables where they are
(`mapPage_present`).

Key definitions: `missing`, `Pmm.HasFree`.
Key theorems: `Pmm.hasFree_succ`, `mapPage_ok_iff`, `mapPage_present`.
-/
import WingOS.TableStates
import Mathlib.Data.Finset.Card

namespace WingOS

/-! ### Free frames -/

namespace Pmm

/-- There are `n` free pages. -/
def HasFree (p : Pmm) (n : ℕ) : Prop := ∃ S : Finset ℕ, S.card = n ∧ ∀ x ∈ S, ¬ p.NotFree x

variable {p p' : Pmm} {c n : ℕ}

theorem hasFree_zero (p : Pmm) : p.HasFree 0 := ⟨∅, rfl, nofun⟩

/-- One page is taken. -/
theorem hasFree_succ (hfree : ¬ p.NotFree c) (hmarks : ∀ x, p'.NotFree x ↔ p.NotFree x ∨ x = c) :
    p.HasFree (n + 1) ↔ p'.HasFree n := by
  constructor
  · intro ⟨S, hcard, hS⟩
    have hlarge : n ≤ (S.erase c).card := by
      have := Finset.pred_card_le_card_erase (s := S) (a := c)
      omega
    obtain ⟨T, hT, hTcard⟩ := Finset.exists_subset_card_eq hlarge
    refine ⟨T, hTcard, fun x hx => ?_⟩
    have hx' := Finset.mem_erase.mp (hT hx)
    rw [hmarks, not_or]
    exact ⟨hS x hx'.2, hx'.1⟩
  · intro ⟨S, hcard, hS⟩
    have hc : c ∉ S := fun hmem => hS c hmem ((hmarks c).mpr (.inr rfl))
    refine ⟨insert c S, by rw [Finset.card_insert_of_notMem hc, hcard], fun x hx => ?_⟩
    rcases Finset.mem_insert.mp hx with rfl | hx
    · exact hfree
    · exact fun hnot => hS x hx ((hmarks x).mpr (.inl hnot))

/-- An allocation that fails leaves no page free. -/
theorem not_hasFree_of_error {e : String} {lower : Bool} (ha : p.allocate 1 lower = (.error e, p')) :
    ¬ p.HasFree (n + 1) := by
  obtain ⟨-, -, hruns⟩ := allocate_error ha
  intro ⟨S, hcard, hS⟩
  obtain ⟨x, hx⟩ : S.Nonempty := Finset.card_pos.mp (by omega)
  apply hS x hx
  intro w hw j hj _
  obtain ⟨i, h1, h2, hbit⟩ := hruns Nat.one_pos w hw j (by omega)
  obtain rfl : i = j := by omega
  exact hbit

theorem HasFree.congr (hmarks : ∀ x, p'.NotFree x ↔ p.NotFree x) : p'.HasFree n ↔ p.HasFree n := by
  unfold HasFree
  simp only [hmarks]

end Pmm

/-! ### Tables on the way -/

/-- The number of tables that are missing on the way to a page. -/
def missing (frames : Frames) (vaddr : ℕ) : (level t : ℕ) → ℕ
  | 0, _ => 0
  | 1, _ => 0
  | level + 2, t =>
    let entry := frames t (tableIndex (level + 2) vaddr)
    if entry.present then missing frames vaddr (level + 1) (entry.address * 4096) else level + 1

section Missing

variable {p₀ : Pmm} {root : ℕ} {v v' : Vmm} {page : Page} {vaddr : ℕ} {p : List (Fin 512)} {t level : ℕ}

theorem missing_succ (frames : Frames) (vaddr level t : ℕ) : missing frames vaddr (level + 2) t =
    if (frames t (slot (level + 2) vaddr)).present then
      missing frames vaddr (level + 1) ((frames t (slot (level + 2) vaddr)).address * 4096)
    else level + 1 := rfl

/-- More rights in an entry move no table. -/
theorem tableAt_widened (v : Vmm) (root t : ℕ) (i : Fin 512) (page : Page) : ∀ q,
    tableAt (v.setEntry t i (widened (v.frames t i) page)).frames root q = tableAt v.frames root q :=
  tableAt_widen v root rfl rfl

/-- Below an entry that is absent, all tables are missing. -/
theorem missing_of_absent (hnew : ∀ j : Fin 512, (v.frames t j).present = false) :
    ∀ {level : ℕ}, missing v.frames vaddr (level + 1) t = level
  | 0 => rfl
  | level + 1 => by
    rw [missing_succ, hnew (slot (level + 2) vaddr)]
    rfl

/-- Tables that stay where they are. -/
theorem missing_congr (htables : ∀ q : List (Fin 512), q.length ≤ 3 →
      tableAt v'.frames root q = tableAt v.frames root q) (vaddr : ℕ) :
    ∀ {level : ℕ} {p : List (Fin 512)} {t : ℕ}, p.length + level = 3 → tableAt v.frames root p = some t →
    missing v'.frames vaddr (level + 1) t = missing v.frames vaddr (level + 1) t
  | 0, _, _, _, _ => rfl
  | level + 1, p, t, hp, ht => by
    have hlen : (p ++ [slot (level + 2) vaddr]).length + level = 3 := by
      rw [List.length_append, List.length_singleton]
      omega
    have hchild : Frames.child v'.frames t (slot (level + 2) vaddr) =
        Frames.child v.frames t (slot (level + 2) vaddr) := by
      have ht' := (htables p (by omega)).trans ht
      rw [← tableAt_concat ht, ← tableAt_concat ht', htables _ (by omega)]
    rw [missing_succ, missing_succ]
    cases hc : Frames.child v.frames t (slot (level + 2) vaddr) with
    | none =>
      rw [hc] at hchild
      rw [child_eq_none.mp hc, child_eq_none.mp hchild]
      rfl
    | some c =>
      rw [hc] at hchild
      rw [(child_eq_some.mp hc).1, (child_eq_some.mp hchild).1, if_pos rfl, if_pos rfl,
        (child_eq_some.mp hc).2, (child_eq_some.mp hchild).2]
      exact missing_congr htables vaddr hlen ((tableAt_concat ht).trans hc)

/-- On the way to a page that is mapped no table is missing. -/
theorem missing_of_leaf {e : Page} : ∀ {level : ℕ} {p : List (Fin 512)} {t : ℕ}, p.length + level = 3 →
    tableAt v.frames root p = some t →
    leafAt v.frames root (p ++ slots vaddr (level + 1)) (slot 1 vaddr) = some e →
    missing v.frames vaddr (level + 1) t = 0
  | 0, _, _, _, _, _ => rfl
  | level + 1, p, t, hp, ht, he => by
    have hlen : (p ++ [slot (level + 2) vaddr]).length + level = 3 := by
      rw [List.length_append, List.length_singleton]
      omega
    obtain ⟨x, hx, -, -⟩ := leafAt_eq_some.mp he
    rw [path_cons] at hx he
    unfold tableAt at hx
    rw [Lib.nodeAt_append, Option.bind_eq_some_iff] at hx
    obtain ⟨c, hc, -⟩ := hx
    have hchild := child_eq_some.mp ((tableAt_concat ht).symm.trans hc)
    rw [missing_succ, if_pos hchild.1, hchild.2]
    exact missing_of_leaf hlen hc he

/-- An entry that gets more rights leaves all tables in their places. -/
theorem missing_widen (ht : tableAt v.frames root p = some t)
    (hpresent : (v.frames t (slot (level + 2) vaddr)).present = true) (hlen : p.length + (level + 1) = 3) :
    missing (v.setEntry t (slot (level + 2) vaddr)
        (widened (v.frames t (slot (level + 2) vaddr)) page)).frames vaddr (level + 1)
        ((v.frames t (slot (level + 2) vaddr)).address * 4096) =
      missing v.frames vaddr (level + 1) ((v.frames t (slot (level + 2) vaddr)).address * 4096) := by
  have hbelow : (p ++ [slot (level + 2) vaddr]).length + level = 3 := by
    rw [List.length_append, List.length_singleton]
    omega
  refine missing_congr (fun q _ => tableAt_widened v root t _ page q) vaddr hbelow ?_
  rw [tableAt_concat ht, child_eq_some]
  exact ⟨hpresent, rfl⟩

/-- **`map` succeeds** just if there is a free frame for each missing table. -/
theorem mapPage_ok_iff (hpage : page.present = true) : ∀ {level : ℕ} {p : List (Fin 512)} {t : ℕ} {v : Vmm},
    Tables p₀ root v → p.length + level = 3 → tableAt v.frames root p = some t →
    Above v.frames root p page →
    ((v.mapPage vaddr page (level + 1) t).1 = .ok () ↔
      v.pmm.HasFree (missing v.frames vaddr (level + 1) t))
  | 0, _, _, v, _, _, _, _ => ⟨fun _ => Pmm.hasFree_zero v.pmm, fun _ => rfl⟩
  | level + 1, p, t, v, h, hp, ht, habove => by
    have hlen : p.length ≤ 2 := by omega
    have hlen' : (p ++ [slot (level + 2) vaddr]).length + level = 3 := by
      rw [List.length_append, List.length_singleton]
      omega
    rw [missing_succ]
    unfold Vmm.mapPage
    dsimp only
    rw [show tableIndex (level + 2) vaddr = (slot (level + 2) vaddr : ℕ) from rfl]
    split
    · rename_i habsent
      rw [if_neg (by rw [habsent]; exact Bool.false_ne_true)]
      split
      · rename_i e pmm ha
        exact ⟨nofun, fun hfree => absurd hfree (Pmm.not_hasFree_of_error ha)⟩
      · rename_i c pmm ha
        have hi : Inserts v root p t (slot (level + 2) vaddr) c pmm
            ⟨true, page.writeable, page.user, c / 4096⟩ :=
          ⟨hlen, ht, habsent, ha, rfl, rfl, habove⟩
        have hchild := hi.child_entry h
        have hrec := mapPage_ok_iff hpage (tables_insert h hi) hlen' (hi.tableAt_child h)
          (above_of_entry (hi.entryAt_own h) ⟨id, id⟩)
        rw [missing_of_absent fun j => child_eq_none.mp (hi.child_new h j)] at hrec
        rw [Pmm.hasFree_succ (hi.free h) (Pmm.notFree_allocate_one h.layout h.aligned ha)]
        change (Vmm.mapPage vaddr page (level + 1) (((v.insertTable pmm t (slot (level + 2) vaddr) c
          ⟨true, page.writeable, page.user, c / 4096⟩).frames t (slot (level + 2) vaddr)).address * 4096)
          _).1 = _ ↔ _
        rw [(child_eq_some.mp hchild).2]
        exact hrec
    · rename_i hpresent
      have hpresent' : (v.frames t (slot (level + 2) vaddr)).present = true :=
        (Bool.not_eq_false _).mp hpresent
      have hmore := widened_below (v.frames t (slot (level + 2) vaddr)) page
      have habove' := above_widened h hlen ht hpresent' habove
      have htable : tableAt (v.setEntry t (slot (level + 2) vaddr)
          (widened (v.frames t (slot (level + 2) vaddr)) page)).frames root
          (p ++ [slot (level + 2) vaddr]) = some ((v.frames t (slot (level + 2) vaddr)).address * 4096) := by
        rw [tableAt_widened, tableAt_concat ht, child_eq_some]
        exact ⟨hpresent', rfl⟩
      have hentry : entryAt (v.setEntry t (slot (level + 2) vaddr)
          (widened (v.frames t (slot (level + 2) vaddr)) page)).frames root p (slot (level + 2) vaddr) =
          some (widened (v.frames t (slot (level + 2) vaddr)) page) := by
        rw [entryAt_setEntry h.tree (by omega) ht (by omega) (tableAt_widened v root t _ page p),
          if_pos ⟨rfl, rfl⟩]
      have hframe := setEntry_frames v t (slot (level + 2) vaddr)
        (widened (v.frames t (slot (level + 2) vaddr)) page) t (slot (level + 2) vaddr)
      rw [if_pos ⟨rfl, rfl⟩] at hframe
      have h₁ : Tables p₀ root (v.setEntry t (slot (level + 2) vaddr)
          (widened (v.frames t (slot (level + 2) vaddr)) page)) :=
        tables_widen h hlen ht hpresent' hpresent' rfl hmore.1 habove'
      have hrec := mapPage_ok_iff hpage h₁ hlen' htable (above_of_entry hentry hmore.2)
      rw [missing_widen ht hpresent' hp] at hrec
      change _ ↔ v.pmm.HasFree _ at hrec
      rw [if_pos hpresent', ← hrec]
      change (Vmm.mapPage vaddr page (level + 1) (((v.setEntry t (slot (level + 2) vaddr)
        (widened (v.frames t (slot (level + 2) vaddr)) page)).frames t
          (slot (level + 2) vaddr)).address * 4096) _).1 = _ ↔ _
      rw [hframe]
      rfl

/-- Where no table is missing, no frame is taken. -/
theorem mapPage_pmm : ∀ {level : ℕ} {p : List (Fin 512)} {t : ℕ} {v : Vmm}, p.length + level = 3 →
    tableAt v.frames root p = some t → missing v.frames vaddr (level + 1) t = 0 →
    (v.mapPage vaddr page (level + 1) t).2.pmm = v.pmm
  | 0, _, _, _, _, _, _ => rfl
  | level + 1, p, t, v, hp, ht, hzero => by
    have hlen' : (p ++ [slot (level + 2) vaddr]).length + level = 3 := by
      rw [List.length_append, List.length_singleton]
      omega
    have hpresent : (v.frames t (slot (level + 2) vaddr)).present = true := by
      by_contra habsent
      rw [missing_succ, if_neg habsent] at hzero
      omega
    have hbelow : missing v.frames vaddr (level + 1) ((v.frames t (slot (level + 2) vaddr)).address * 4096) = 0 := by
      rwa [missing_succ, if_pos hpresent] at hzero
    have htable : tableAt (v.setEntry t (slot (level + 2) vaddr)
        (widened (v.frames t (slot (level + 2) vaddr)) page)).frames root
        (p ++ [slot (level + 2) vaddr]) = some ((v.frames t (slot (level + 2) vaddr)).address * 4096) := by
      rw [tableAt_widened, tableAt_concat ht, child_eq_some]
      exact ⟨hpresent, rfl⟩
    have hframe := setEntry_frames v t (slot (level + 2) vaddr)
      (widened (v.frames t (slot (level + 2) vaddr)) page) t (slot (level + 2) vaddr)
    rw [if_pos ⟨rfl, rfl⟩] at hframe
    unfold Vmm.mapPage
    dsimp only
    rw [show tableIndex (level + 2) vaddr = (slot (level + 2) vaddr : ℕ) from rfl,
      if_neg (by rw [hpresent]; exact Bool.true_eq_false.mp)]
    change (Vmm.mapPage vaddr page (level + 1) (((v.setEntry t (slot (level + 2) vaddr)
      (widened (v.frames t (slot (level + 2) vaddr)) page)).frames t
        (slot (level + 2) vaddr)).address * 4096) _).2.pmm = _
    rw [hframe]
    exact mapPage_pmm hlen' htable ((missing_widen ht hpresent hp).trans hbelow)

/-- Tables that are kept, and no others, as the same frames are marked. -/
theorem Tables.tableAt_eq (h : Tables p₀ root v) (h' : Tables p₀ root v') (hpmm : v'.pmm = v.pmm)
    (hkeeps : ∀ q x, q.length ≤ 3 → tableAt v.frames root q = some x → tableAt v'.frames root q = some x)
    (q : List (Fin 512)) (hq : q.length ≤ 3) : tableAt v'.frames root q = tableAt v.frames root q := by
  cases hx : tableAt v.frames root q with
  | some x => exact hkeeps q x hq hx
  | none =>
    cases hx' : tableAt v'.frames root q with
    | none => rfl
    | some x =>
      have hne : q ≠ [] := by
        rintro rfl
        cases hx
      have hchild' : IsChild v'.frames root x := ⟨q, hne, hq, hx'⟩
      have hmarked := (h'.marks x).mpr (.inr hchild')
      rw [hpmm] at hmarked
      obtain ⟨r, -, hr, hrx⟩ := ((h.marks x).mp hmarked).resolve_left (h'.fresh x hchild')
      rw [h'.tree q r x hq hr hx' (hkeeps r x hr hrx), hrx] at hx
      cases hx

/-- A page that is mapped already: nothing moves. -/
theorem mapPage_present (h : Tables p₀ root v) (hpage : page.present = true) {e : Page}
    (he : leafAt v.frames root (slots vaddr 4) (slot 1 vaddr) = some e) :
    ∃ v', v.mapPage vaddr page 4 root = (.ok (), v') ∧ v'.pmm = v.pmm ∧
      ∀ q : List (Fin 512), q.length ≤ 3 → tableAt v'.frames root q = tableAt v.frames root q := by
  have hzero : missing v.frames vaddr 4 root = 0 := missing_of_leaf (p := []) rfl (tableAt_nil _ _) he
  have hok : (v.mapPage vaddr page 4 root).1 = .ok () := by
    rw [mapPage_ok_iff (p := []) hpage h rfl (tableAt_nil _ _) fun _ _ _ hp => absurd hp (by simp), hzero]
    exact Pmm.hasFree_zero _
  have hpmm : (v.mapPage vaddr page 4 root).2.pmm = v.pmm := mapPage_pmm (p := []) rfl (tableAt_nil _ _) hzero
  cases hmap : v.mapPage vaddr page 4 root with
  | mk res v' =>
  rw [hmap] at hok hpmm
  obtain rfl : res = .ok () := hok
  obtain ⟨hT, hdone⟩ := map_root h hpage hmap
  exact ⟨v', rfl, hpmm, h.tableAt_eq hT hpmm hdone.keeps⟩

/-- A page for which the frames do not suffice is not mapped. -/
theorem leafAt_of_mapPage_error (h : Tables p₀ root v) (hpage : page.present = true) {e : String}
    (hmap : v.mapPage vaddr page 4 root = (.error e, v')) :
    leafAt v.frames root (slots vaddr 4) (slot 1 vaddr) = none := by
  cases he : leafAt v.frames root (slots vaddr 4) (slot 1 vaddr) with
  | none => rfl
  | some e =>
    obtain ⟨v₁, hok, -⟩ := mapPage_present h hpage he
    rw [hmap] at hok
    cases (Prod.mk.inj hok).1

end Missing
end WingOS
