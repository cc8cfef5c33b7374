/-
# Slots that hold objects

Raw storage in which objects live: a slot is raw, or holds one object. Only a
raw slot can be constructed in, only a filled one destroyed or assigned to; any
other use does not get through. Objects are numbered in the order in which they
are made, and the list of those destroyed is kept.

In a table that is `Accounted` every object was destroyed once or is in one
slot. If no slot is filled, each object was destroyed exactly once
(`Accounted.all_destroyed`).

Key definitions: `Slots`, `construct`, `destroy`, `modify`, `rename`, `Accounted`.
Key theorems: `accounted_construct`, `accounted_destroy`, `accounted_modify`,
`accounted_rename`, `Accounted.all_destroyed`.
-/
import Mathlib.Data.List.Nodup
import Mathlib.Logic.Function.Basic

namespace WingOS
namespace Lib

/-- What each slot holds: the number of an object, and its contents. -/
structure Slots (ι K : Type*) where
  slot : ι → Option (ℕ × K)
  next : ℕ
  destroyed : List ℕ

namespace Slots

variable {ι K : Type*} [DecidableEq ι]

def put (s : Slots ι K) (i : ι) (o : Option (ℕ × K)) : Slots ι K := { s with slot := Function.update s.slot i o }

@[simp]
theorem put_slot (s : Slots ι K) (i : ι) (o : Option (ℕ × K)) : (s.put i o).slot = Function.update s.slot i o := rfl

/-- An object with the contents `k` is constructed in the slot `i`. -/
def construct (s : Slots ι K) (i : ι) (k : K) : Option (Slots ι K) :=
  match s.slot i with
  | none => some { s.put i (some (s.next, k)) with next := s.next + 1 }
  | some _ => none

/-- The object in the slot `i` is destroyed; it has to be one with `p`. -/
def destroy (s : Slots ι K) (p : K → Bool) (i : ι) : Option (Slots ι K) :=
  match s.slot i with
  | none => none
  | some (id, k) => if p k then some { s.put i none with destroyed := id :: s.destroyed } else none

/-- The contents of the object in the slot `i` change; it has to be one with
`p`. -/
def modify (s : Slots ι K) (p : K → Bool) (i : ι) (f : K → K) : Option (Slots ι K) :=
  match s.slot i with
  | none => none
  | some (id, k) => if p k then some (s.put i (some (id, f k))) else none

/-- What was in the slot `σ i` is in the slot `i`. -/
def rename (s : Slots ι K) (σ : ι → ι) : Slots ι K := { s with slot := s.slot ∘ σ }

/-- Every object was destroyed once, or is in one slot. -/
structure Accounted (s : Slots ι K) : Prop where
  below : ∀ i id k, s.slot i = some (id, k) → id < s.next ∧ id ∉ s.destroyed
  once : ∀ i j id k k', s.slot i = some (id, k) → s.slot j = some (id, k') → i = j
  nodup : s.destroyed.Nodup
  made : ∀ id ∈ s.destroyed, id < s.next
  found : ∀ id < s.next, id ∈ s.destroyed ∨ ∃ i k, s.slot i = some (id, k)

variable {s s' : Slots ι K} {i : ι} {p : K → Bool} {id : ℕ} {k : K}

theorem construct_eq (h : s.slot i = none) (k : K) :
    s.construct i k = some { s.put i (some (s.next, k)) with next := s.next + 1 } := by
  rw [construct, h]

theorem destroy_eq (h : s.slot i = some (id, k)) (hp : p k = true) :
    s.destroy p i = some { s.put i none with destroyed := id :: s.destroyed } := by
  rw [destroy, h]
  exact if_pos hp

theorem modify_eq (h : s.slot i = some (id, k)) (hp : p k = true) (f : K → K) :
    s.modify p i f = some (s.put i (some (id, f k))) := by
  rw [modify, h]
  exact if_pos hp

omit [DecidableEq ι] in
/-- Nothing is made yet. -/
theorem accounted_empty : Accounted (⟨fun _ => none, 0, []⟩ : Slots ι K) where
  below _ _ _ h := absurd h (by simp)
  once _ _ _ _ _ h := absurd h (by simp)
  nodup := List.nodup_nil
  made _ h := absurd h List.not_mem_nil
  found _ h := absurd h (Nat.not_lt_zero _)

theorem accounted_construct (h : Accounted s) (hi : s.slot i = none) (k : K) :
    Accounted { s.put i (some (s.next, k)) with next := s.next + 1 } where
  below j id k' hj := by
    by_cases hji : j = i
    · subst hji
      simp only [put_slot, Function.update_self, Option.some.injEq, Prod.mk.injEq] at hj
      obtain ⟨rfl, -⟩ := hj
      exact ⟨Nat.lt_succ_self _, fun hmem => Nat.lt_irrefl _ (h.made _ hmem)⟩
    · simp only [put_slot, Function.update_of_ne hji] at hj
      obtain ⟨hlt, hnot⟩ := h.below j id k' hj
      exact ⟨Nat.lt_succ_of_lt hlt, hnot⟩
  once j j' id k1 k2 hj hj' := by
    by_cases hji : j = i
    · by_cases hji' : j' = i
      · rw [hji, hji']
      · subst hji
        simp only [put_slot, Function.update_self, Option.some.injEq, Prod.mk.injEq] at hj
        simp only [put_slot, Function.update_of_ne hji'] at hj'
        have hlt := (h.below j' id k2 hj').1
        omega
    · simp only [put_slot, Function.update_of_ne hji] at hj
      by_cases hji' : j' = i
      · subst hji'
        simp only [put_slot, Function.update_self, Option.some.injEq, Prod.mk.injEq] at hj'
        have hlt := (h.below j id k1 hj).1
        omega
      · simp only [put_slot, Function.update_of_ne hji'] at hj'
        exact h.once j j' id k1 k2 hj hj'
  nodup := h.nodup
  made id hid := Nat.lt_succ_of_lt (h.made id hid)
  found id hid := by
    rcases Nat.lt_succ_iff_lt_or_eq.mp hid with hlt | rfl
    · rcases h.found id hlt with hdone | ⟨j, k', hj⟩
      · exact Or.inl hdone
      · have hji : j ≠ i := fun heq => by
          rw [heq, hi] at hj
          exact absurd hj (by simp)
        exact Or.inr ⟨j, k', by rw [put_slot, Function.update_of_ne hji, hj]⟩
    · exact Or.inr ⟨i, k, by rw [put_slot, Function.update_self]⟩

theorem slot_put_none_iff {j : ι} {x : ℕ × K} : (s.put i none).slot j = some x ↔ j ≠ i ∧ s.slot j = some x := by
  rw [put_slot]
  by_cases hji : j = i
  · subst hji
    simp
  · rw [Function.update_of_ne hji]
    exact (and_iff_right hji).symm

theorem accounted_destroy (h : Accounted s) (hi : s.slot i = some (id, k)) :
    Accounted { s.put i none with destroyed := id :: s.destroyed } where
  below j id' k' hj := by
    obtain ⟨hji, hold⟩ := slot_put_none_iff.mp hj
    obtain ⟨hlt, hnot⟩ := h.below j id' k' hold
    refine ⟨hlt, fun hmem => ?_⟩
    rcases List.mem_cons.mp hmem with rfl | hmem
    · exact hji (h.once j i _ _ _ hold hi)
    · exact hnot hmem
  once j j' id' k1 k2 hj hj' :=
    h.once j j' id' k1 k2 (slot_put_none_iff.mp hj).2 (slot_put_none_iff.mp hj').2
  nodup := List.nodup_cons.mpr ⟨(h.below i id k hi).2, h.nodup⟩
  made id' hid := by
    rcases List.mem_cons.mp hid with rfl | hid
    · exact (h.below i _ k hi).1
    · exact h.made id' hid
  found id' hid := by
    rcases h.found id' hid with hdone | ⟨j, k', hj⟩
    · exact Or.inl (List.mem_cons_of_mem id hdone)
    · by_cases hji : j = i
      · subst hji
        rw [hi, Option.some.injEq, Prod.mk.injEq] at hj
        exact Or.inl (hj.1 ▸ List.mem_cons_self)
      · exact Or.inr ⟨j, k', slot_put_none_iff.mpr ⟨hji, hj⟩⟩

omit [DecidableEq ι] in
/-- Contents do not matter. -/
theorem Accounted.of_fst (h : Accounted s) (hslot : ∀ j, (s'.slot j).map Prod.fst = (s.slot j).map Prod.fst)
    (hnext : s'.next = s.next) (hdestroyed : s'.destroyed = s.destroyed) : Accounted s' := by
  have hback : ∀ j id k', s'.slot j = some (id, k') → ∃ k, s.slot j = some (id, k) := fun j id k' hj => by
    have hfst := hslot j
    rw [hj, Option.map_some] at hfst
    obtain ⟨⟨id', k⟩, hk, heq⟩ := Option.map_eq_some_iff.mp hfst.symm
    exact ⟨k, by rw [hk]; exact congrArg (fun n => some (n, k)) heq⟩
  refine ⟨fun j id k' hj => ?_, fun j j' id k1 k2 hj hj' => ?_, hdestroyed ▸ h.nodup, fun id hid => ?_,
    fun id hid => ?_⟩
  · obtain ⟨k, hk⟩ := hback j id k' hj
    rw [hnext, hdestroyed]
    exact h.below j id k hk
  · obtain ⟨k, hk⟩ := hback j id k1 hj
    obtain ⟨k', hk'⟩ := hback j' id k2 hj'
    exact h.once j j' id k k' hk hk'
  · rw [hnext]
    exact h.made id (hdestroyed ▸ hid)
  · rw [hdestroyed]
    refine (h.found id (hnext ▸ hid)).imp_right ?_
    rintro ⟨j, k, hj⟩
    have hfst := hslot j
    rw [hj, Option.map_some] at hfst
    obtain ⟨⟨id', k'⟩, hk', heq⟩ := Option.map_eq_some_iff.mp hfst
    exact ⟨j, k', by rw [hk']; exact congrArg (fun n => some (n, k')) heq⟩

theorem accounted_modify (h : Accounted s) (hi : s.slot i = some (id, k)) (k' : K) :
    Accounted (s.put i (some (id, k'))) := by
  refine h.of_fst (fun j => ?_) rfl rfl
  by_cases hji : j = i
  · subst hji
    rw [put_slot, Function.update_self, hi]
    rfl
  · rw [put_slot, Function.update_of_ne hji]

omit [DecidableEq ι] in
/-- Objects that are moved as a whole are still there. -/
theorem accounted_rename (h : Accounted s) {σ : ι → ι} (hσ : Function.Bijective σ) :
    Accounted (s.rename σ) where
  below i id k hi := h.below (σ i) id k hi
  once i j id k k' hi hj := hσ.injective (h.once (σ i) (σ j) id k k' hi hj)
  nodup := h.nodup
  made := h.made
  found id hid := by
    refine (h.found id hid).imp_right ?_
    rintro ⟨i, k, hi⟩
    obtain ⟨j, rfl⟩ := hσ.surjective i
    exact ⟨j, k, hi⟩

omit [DecidableEq ι] in
/-- **If no slot is filled**, every object that was made was destroyed exactly
once, and nothing else was. -/
theorem Accounted.all_destroyed (h : Accounted s) (hraw : ∀ i, s.slot i = none) (id : ℕ) :
    s.destroyed.count id = if id < s.next then 1 else 0 := by
  by_cases hid : id < s.next
  · rw [if_pos hid]
    rcases h.found id hid with hdone | ⟨i, k, hi⟩
    · exact List.count_eq_one_of_mem h.nodup hdone
    · rw [hraw i] at hi
      exact absurd hi (by simp)
  · rw [if_neg hid]
    exact List.count_eq_zero_of_not_mem fun hmem => hid (h.made id hmem)

end Slots
end Lib
end WingOS
