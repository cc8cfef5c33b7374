/-
# Walks over records

Records that lie one behind the other, each of which says how long it is (`Leads`).
A walk begins at a place and goes from a record to what is behind it, until it
finds something, or is at the end or behind it. `Visits` says which records it looks
at and what it finds; there need not be any such list, since a record may say that
its length is zero. The walk ends, and looks only at records with a property, just
if every record that it reaches has the property, and is longer than zero if the
walk goes on behind it (`exists_visits_iff`).

Key definitions: `Leads`, `Reaches`, `Visits`.
Key theorems: `exists_visits_iff`, `visits_of_leads`, `visits_find`.
-/
import Mathlib.Data.List.Basic
import Mathlib.Tactic.Common

namespace WingOS
namespace Lib

section Leads

variable {α : Type*} (place size : α → ℕ)

/-- From `a`, the records `l` lead to `b`, one behind the other. -/
def Leads : ℕ → List α → ℕ → Prop
  | a, [], b => a = b
  | a, x :: l, b => place x = a ∧ Leads (a + size x) l b

variable {place size}

theorem Leads.append {l m : List α} {a b c : ℕ} (h : Leads place size a l b) (h' : Leads place size b m c) :
    Leads place size a (l ++ m) c := by
  induction l generalizing a with
  | nil =>
    cases h
    exact h'
  | cons x l ih => exact ⟨h.1, ih h.2⟩

theorem Leads.le {l : List α} {a b : ℕ} (h : Leads place size a l b) : a ≤ b := by
  induction l generalizing a with
  | nil => exact Nat.le_of_eq h
  | cons x l ih => exact Nat.le_trans (Nat.le_add_right _ _) (ih h.2)

/-- Records that are longer than zero begin before the end. -/
theorem Leads.lt {l : List α} {a b : ℕ} (h : Leads place size a l b) (hpos : ∀ x ∈ l, 0 < size x) :
    ∀ x ∈ l, place x < b := by
  induction l generalizing a with
  | nil => exact fun x hx => absurd hx List.not_mem_nil
  | cons x l ih =>
    obtain ⟨rfl, hrest⟩ := h
    obtain ⟨hx, hl⟩ := List.forall_mem_cons.mp hpos
    exact List.forall_mem_cons.mpr ⟨Nat.lt_of_lt_of_le (Nat.lt_add_of_pos_right hx) hrest.le, ih hrest hl⟩

end Leads

section Walk

variable {β : Type*} (size : ℕ → ℕ) (found : ℕ → Option β) (stop : ℕ)

/-- A walk from `a` reaches the record at `x`. -/
inductive Reaches (a : ℕ) : ℕ → Prop
  | start : a < stop → Reaches a a
  | next {x : ℕ} : Reaches a x → found x = none → x + size x < stop → Reaches a (x + size x)

/-- A walk from `a` looks at the records `l`, and finds `r`. -/
def Visits : ℕ → List ℕ → Option β → Prop
  | a, [], r => stop ≤ a ∧ r = none
  | a, x :: l, r => x = a ∧ a < stop ∧
      (found a = none ∧ Visits (a + size a) l r ∨ ∃ y, found a = some y ∧ l = [] ∧ r = some y)

variable {size found stop} {a b x : ℕ} {l : List ℕ} {r : Option β}

/-- What is reached from the second record on. -/
theorem Reaches.of_next (ha : a < stop) (hnone : found a = none) (h : Reaches size found stop (a + size a) x) :
    Reaches size found stop a x := by
  induction h with
  | start hlt => exact .next (.start ha) hnone hlt
  | next _ hx hlt ih => exact .next ih hx hlt

/-- The first record, or one of those behind it. -/
theorem Reaches.cases_head (h : Reaches size found stop a x) :
    a < stop ∧ (x = a ∨ found a = none ∧ Reaches size found stop (a + size a) x) := by
  induction h with
  | start hlt => exact ⟨hlt, Or.inl rfl⟩
  | next _ hx hlt ih =>
    refine ⟨ih.1, Or.inr ?_⟩
    rcases ih.2 with heq | ⟨hnone, hreach⟩
    · cases heq
      exact ⟨hx, .start hlt⟩
    · exact ⟨hnone, .next hreach hx hlt⟩

theorem Reaches.lt (h : Reaches size found stop a x) : x < stop := by
  induction h with
  | start hlt => exact hlt
  | next _ _ hlt _ => exact hlt

/-- Where there is nothing to find, nothing is found. -/
theorem Visits.eq_none (h : Visits size found stop a l r) (hfound : ∀ x, found x = none) : r = none := by
  induction l generalizing a with
  | nil => exact h.2
  | cons x l ih =>
    obtain ⟨-, -, ⟨-, hrest⟩ | ⟨y, hsome, -⟩⟩ := h
    · exact ih hrest
    · rw [hfound] at hsome
      cases hsome

/-- The records that a walk looks at are those that it reaches, and it does not stay at one of
them. -/
theorem Visits.reaches (h : Visits size found stop a l r) (hx : Reaches size found stop a x) :
    x ∈ l ∧ (found x = none → size x ≠ 0) := by
  induction l generalizing a with
  | nil => exact absurd hx.cases_head.1 (Nat.not_lt.mpr h.1)
  | cons y l ih =>
    obtain ⟨rfl, hlt, hgoes⟩ := h
    rcases hgoes with ⟨hnone, hrest⟩ | ⟨z, hsome, rfl, rfl⟩
    · rcases hx.cases_head.2 with rfl | ⟨-, hreach⟩
      · refine ⟨List.mem_cons_self, fun _ hzero => ?_⟩
        -- it would be at the same record again
        have hagain : Reaches size found stop (x + size x) x := by
          rw [hzero]
          exact .start hlt
        exact (ih hrest hagain).2 hnone hzero
      · obtain ⟨hmem, hsize⟩ := ih hrest hreach
        exact ⟨List.mem_cons_of_mem _ hmem, hsize⟩
    · rcases hx.cases_head.2 with rfl | ⟨hnone, -⟩
      · refine ⟨List.mem_cons_self, fun hnone => ?_⟩
        rw [hnone] at hsome
        cases hsome
      · rw [hnone] at hsome
        cases hsome

/-- A walk finds one thing. -/
theorem Visits.unique {l' : List ℕ} {r' : Option β} (h : Visits size found stop a l r)
    (h' : Visits size found stop a l' r') : r = r' := by
  induction l generalizing a l' with
  | nil =>
    cases l' with
    | nil => exact h.2.trans h'.2.symm
    | cons y l' => exact absurd h'.2.1 (Nat.not_lt.mpr h.1)
  | cons x l ih =>
    cases l' with
    | nil => exact absurd h.2.1 (Nat.not_lt.mpr h'.1)
    | cons y l' =>
      obtain ⟨-, -, ⟨hnone, hrest⟩ | ⟨z, hsome, -, rfl⟩⟩ := h
      · obtain ⟨-, -, ⟨-, hrest'⟩ | ⟨z', hsome', -⟩⟩ := h'
        · exact ih hrest hrest'
        · cases hnone.symm.trans hsome'
      · obtain ⟨-, -, ⟨hnone, -⟩ | ⟨z', hsome', -, rfl⟩⟩ := h'
        · cases hnone.symm.trans hsome
        · exact hsome.symm.trans hsome'

variable (size found stop) in
/-- **A walk ends**, at records with a property, exactly if all the records that it reaches have it
and lead further. -/
theorem exists_visits_iff {P : ℕ → Prop} : (∃ l r, Visits size found stop a l r ∧ ∀ x ∈ l, P x) ↔
    ∀ x, Reaches size found stop a x → P x ∧ (found x = none → size x ≠ 0) := by
  constructor
  · rintro ⟨l, r, hvisits, hP⟩ x hx
    obtain ⟨hmem, hsize⟩ := hvisits.reaches hx
    exact ⟨hP x hmem, hsize⟩
  · intro h
    generalize hleft : stop - a = left
    induction left using Nat.strongRecOn generalizing a with
    | ind left ih =>
      by_cases hlt : a < stop
      · obtain ⟨hP, hsize⟩ := h a (.start hlt)
        cases hfound : found a with
        | some y =>
          exact ⟨[a], some y, ⟨rfl, hlt, Or.inr ⟨y, hfound, rfl, rfl⟩⟩, List.forall_mem_singleton.mpr hP⟩
        | none =>
          have hpos := hsize hfound
          obtain ⟨l, r, hvisits, hall⟩ := ih (stop - (a + size a)) (by omega)
            (fun x hx => h x (hx.of_next hlt hfound)) rfl
          exact ⟨a :: l, r, ⟨rfl, hlt, Or.inl ⟨hfound, hvisits⟩⟩, List.forall_mem_cons.mpr ⟨hP, hall⟩⟩
      · exact ⟨[], none, ⟨Nat.not_lt.mp hlt, rfl⟩, fun x hx => absurd hx List.not_mem_nil⟩

variable (found) in
/-- A walk that finds nothing looks at all records up to the end. -/
theorem visits_of_leads (hfound : ∀ x, found x = none) (h : Leads id size a l stop) (hpos : ∀ x ∈ l, 0 < size x) :
    Visits size found stop a l none := by
  induction l generalizing a with
  | nil => exact ⟨Nat.le_of_eq h.symm, rfl⟩
  | cons x l ih =>
    obtain ⟨rfl, hrest⟩ := h
    have hsize := hpos _ List.mem_cons_self
    have hle := hrest.le
    exact ⟨rfl, Nat.lt_of_lt_of_le (Nat.lt_add_of_pos_right hsize) hle,
      Or.inl ⟨hfound _, ih hrest fun y hy => hpos y (List.mem_cons_of_mem _ hy)⟩⟩

variable (found) in
/-- A walk finds what the first of the records has in which there is something. -/
theorem visits_find (h : Leads id size a l stop) (hpos : ∀ x ∈ l, 0 < size x) :
    ∃ l', l' <+: l ∧ Visits size found stop a l' (l.findSome? found) := by
  induction l generalizing a with
  | nil => exact ⟨[], List.nil_prefix, Nat.le_of_eq h.symm, rfl⟩
  | cons x l ih =>
    obtain ⟨rfl, hrest⟩ := h
    have hlt : id x < stop := Nat.lt_of_lt_of_le (Nat.lt_add_of_pos_right (hpos _ List.mem_cons_self)) hrest.le
    cases hfound : found x with
    | some y =>
      refine ⟨[x], List.cons_prefix_cons.mpr ⟨rfl, List.nil_prefix⟩, rfl, hlt, Or.inr ⟨y, hfound, rfl, ?_⟩⟩
      rw [List.findSome?_cons, hfound]
    | none =>
      obtain ⟨l', hprefix, hvisits⟩ := ih hrest fun y hy => hpos y (List.mem_cons_of_mem _ hy)
      refine ⟨x :: l', List.cons_prefix_cons.mpr ⟨rfl, hprefix⟩, rfl, hlt, Or.inl ⟨hfound, ?_⟩⟩
      rw [List.findSome?_cons, hfound]
      exact hvisits

end Walk

end Lib
end WingOS
