/-
# Machines that are fed with a stream

A machine takes one input at a time, and gives any number of outputs for it
(`step : σ → ι → σ × List ο`). Fed with a stream, its outputs are those of the
inputs, in order (`feed`).

A decoder is such a machine. If it gives the item back for the code of each
item, and is at rest again, it gives any items back for their codes in a row
(`feed_codes`). Two machines that share a stream, each with inputs of its own,
do not disturb each other: what comes from the one is what it gives for its own
part of the stream (`feed_left`, `feed_right`).

Key definitions: `feed`, `lefts`, `rights`, `both`.
Key theorems: `feed_append`, `feed_codes`, `feed_left`, `feed_right`.
-/
import Mathlib.Data.List.Basic

namespace WingOS
namespace Lib

variable {σ σ' ι ι' ο ο' : Type*} (step : σ → ι → σ × List ο) (step' : σ' → ι' → σ' × List ο')

/-- Where a machine ends after a stream, and what it gives. -/
def feed : σ → List ι → σ × List ο
  | s, [] => (s, [])
  | s, i :: is => ((feed (step s i).1 is).1, (step s i).2 ++ (feed (step s i).1 is).2)

@[simp]
theorem feed_nil (s : σ) : feed step s [] = (s, []) := rfl

@[simp]
theorem feed_cons (s : σ) (i : ι) (is : List ι) : feed step s (i :: is) =
    ((feed step (step s i).1 is).1, (step s i).2 ++ (feed step (step s i).1 is).2) := rfl

/-- A stream can be fed in two parts. -/
theorem feed_append (is js : List ι) : ∀ s : σ, feed step s (is ++ js) =
    ((feed step (feed step s is).1 js).1, (feed step s is).2 ++ (feed step (feed step s is).1 js).2) := by
  induction is with
  | nil => simp
  | cons i is ih => simp [ih, List.append_assoc]

/-- One more input. -/
theorem feed_concat (s : σ) (is : List ι) (i : ι) : feed step s (is ++ [i]) =
    ((step (feed step s is).1 i).1, (feed step s is).2 ++ (step (feed step s is).1 i).2) := by
  simp [feed_append]

variable {step step'}

/-- **Decoding.** A machine that gives `f x` for the code of `x`, and is at rest before and after it, gives the
items for a row of codes. -/
theorem feed_codes {α : Type*} {rest : σ → Prop} {code : α → List ι} {f : α → ο} (xs : List α)
    (h : ∀ x ∈ xs, ∀ s, rest s → rest (feed step s (code x)).1 ∧ (feed step s (code x)).2 = [f x]) :
    ∀ s, rest s → rest (feed step s (xs.flatMap code)).1 ∧ (feed step s (xs.flatMap code)).2 = xs.map f := by
  induction xs with
  | nil => exact fun s hs => ⟨hs, rfl⟩
  | cons x xs ih =>
    intro s hs
    obtain ⟨hfirst, hout⟩ := h x List.mem_cons_self s hs
    obtain ⟨hrest, houts⟩ := ih (fun y hy => h y (List.mem_cons_of_mem x hy)) _ hfirst
    rw [List.flatMap_cons, feed_append, List.map_cons, hout, houts]
    exact ⟨hrest, rfl⟩

/-! ### Two machines on one stream -/

/-- What a shared stream has for the one machine. -/
def lefts {α β : Type*} (l : List (α ⊕ β)) : List α := l.filterMap Sum.getLeft?

/-- What it has for the other. -/
def rights {α β : Type*} (l : List (α ⊕ β)) : List β := l.filterMap Sum.getRight?

section Parts

variable {α β : Type*} (l l' : List (α ⊕ β))

@[simp] theorem lefts_nil : lefts ([] : List (α ⊕ β)) = [] := rfl
@[simp] theorem rights_nil : rights ([] : List (α ⊕ β)) = [] := rfl
@[simp] theorem lefts_inl (a : α) : lefts (.inl a :: l) = a :: lefts l := rfl
@[simp] theorem lefts_inr (b : β) : lefts (.inr b :: l) = lefts l := rfl
@[simp] theorem rights_inl (a : α) : rights (.inl a :: l) = rights l := rfl
@[simp] theorem rights_inr (b : β) : rights (.inr b :: l) = b :: rights l := rfl

@[simp]
theorem lefts_append : lefts (l ++ l') = lefts l ++ lefts l' := List.filterMap_append

@[simp]
theorem rights_append : rights (l ++ l') = rights l ++ rights l' := List.filterMap_append

@[simp]
theorem lefts_map_inl (l : List α) : lefts (l.map (Sum.inl : α → α ⊕ β)) = l := by
  induction l with
  | nil => rfl
  | cons x l ih => rw [List.map_cons, lefts_inl, ih]

@[simp]
theorem lefts_map_inr (l : List β) : lefts (l.map (Sum.inr : β → α ⊕ β)) = [] := by
  induction l with
  | nil => rfl
  | cons x l ih => rw [List.map_cons, lefts_inr, ih]

@[simp]
theorem rights_map_inl (l : List α) : rights (l.map (Sum.inl : α → α ⊕ β)) = [] := by
  induction l with
  | nil => rfl
  | cons x l ih => rw [List.map_cons, rights_inl, ih]

@[simp]
theorem rights_map_inr (l : List β) : rights (l.map (Sum.inr : β → α ⊕ β)) = l := by
  induction l with
  | nil => rfl
  | cons x l ih => rw [List.map_cons, rights_inr, ih]

end Parts

variable (step step') in
/-- Each input is for one of the two machines. -/
def both (s : σ × σ') : ι ⊕ ι' → (σ × σ') × List (ο ⊕ ο')
  | .inl i => (((step s.1 i).1, s.2), (step s.1 i).2.map .inl)
  | .inr i => ((s.1, (step' s.2 i).1), (step' s.2 i).2.map .inr)

/-- **The one machine** gives what it would give alone. -/
theorem feed_left (is : List (ι ⊕ ι')) : ∀ s : σ × σ',
    (feed (both step step') s is).1.1 = (feed step s.1 (lefts is)).1 ∧
      lefts (feed (both step step') s is).2 = (feed step s.1 (lefts is)).2 := by
  induction is with
  | nil => exact fun s => ⟨rfl, rfl⟩
  | cons i is ih =>
    intro s
    rcases i with i | i
    · simp [both, ih ((step s.1 i).1, s.2)]
    · simp [both, ih (s.1, (step' s.2 i).1)]

/-- **So does the other.** -/
theorem feed_right (is : List (ι ⊕ ι')) : ∀ s : σ × σ',
    (feed (both step step') s is).1.2 = (feed step' s.2 (rights is)).1 ∧
      rights (feed (both step step') s is).2 = (feed step' s.2 (rights is)).2 := by
  induction is with
  | nil => exact fun s => ⟨rfl, rfl⟩
  | cons i is ih =>
    intro s
    rcases i with i | i
    · simp [both, ih ((step s.1 i).1, s.2)]
    · simp [both, ih (s.1, (step' s.2 i).1)]

end Lib
end WingOS
