/-
# Copying a ring

`Ring(const Ring &)` of `libcore/ds/ring.hpp` gives the copy the indices of the
original, and puts its elements from `_head` on. It takes them from the first
cells of the original, not from those behind its `_head`. The copy gives out what
the original does if and only if these hold the same (`copy_pops_iff`), which they
do when `_head` is 0.

Pops are taken from the original and the copy in any order; each one gives what
the first cell holds (`popCell`).

Key definitions: `copy`, `popCell`, `pops`, `popBoth`, `Copied`.
Key theorems: `fits_step`, `pops_eq`, `popBoth_eq`, `copy_pops_iff`.
-/
import WingOS.RingRuns

namespace WingOS
namespace Ring

open Function (update)
open Lib (mod_of_lt_two_mul)

variable {α : Type*}

/-- The loop of the copy constructor, over the elements below `n`. -/
def copyCells (rhs : Ring α) : ℕ → ℕ → Option α
  | 0 => fun _ => none
  | n + 1 => update (copyCells rhs n) ((n + rhs.head) % rhs.capacity) (rhs.data n)

/-- `Ring(const Ring &rhs)`. -/
def copy (rhs : Ring α) : Ring α where
  data := copyCells rhs rhs.len
  head := rhs.head
  tail := rhs.tail
  capacity := rhs.capacity
  len := rhs.len

/-- `pop`, which gives what the first cell holds. -/
def popCell (r : Ring α) : Option (Option α × Ring α) :=
  if r.len = 0 then none
  else some (r.data r.head,
    { r with
      data := update r.data r.head none
      head := (r.head + 1) % r.capacity
      len := r.len - 1 })

/-- What `n` pops give, and the ring after them; there are no more than the ring has elements. -/
def pops : ℕ → Ring α → List (Option α) × Ring α
  | 0, r => ([], r)
  | n + 1, r =>
    match r.popCell with
    | none => ([], r)
    | some (value, r) => (value :: (pops n r).1, (pops n r).2)

/-- Pops of two rings, of the first one where the list has `true`: what each ring gave. -/
def popBoth : List Bool → Ring α → Ring α → List (Option α) × List (Option α)
  | [], _, _ => ([], [])
  | true :: order, r, r' =>
    let (out, out') := popBoth order ((pops 1 r).2) r'
    ((pops 1 r).1 ++ out, out')
  | false :: order, r, r' =>
    let (out, out') := popBoth order r ((pops 1 r').2)
    (out, (pops 1 r').1 ++ out')

/-- In whatever order the original and its copy are popped, each gives what the original gives
when there is no copy. -/
def Copied (r : Ring α) : Prop :=
  ∀ order : List Bool, popBoth order r r.copy =
    ((pops (order.count true) r).1, (pops (order.count false) r).1)

variable {r : Ring α}

/-- `popCell` is `pop` where the first cell holds an element. -/
theorem pop_eq_popCell : r.pop = r.popCell.bind fun p => p.1.map fun value => (value, p.2) := by
  unfold pop popCell
  split_ifs <;> rfl

/-- The indices are in the array, and one cell of it is free. -/
def Fits (r : Ring α) : Prop :=
  r.capacity = 0 ∧ r.head = 0 ∧ r.tail = 0 ∧ r.len = 0 ∨
    r.head < r.capacity ∧ r.tail < r.capacity ∧ r.len < r.capacity

theorem Fits.within (h : r.Fits) : r.Within := by
  rcases h with ⟨hcapacity, hhead, htail, -⟩ | ⟨hhead, htail, -⟩
  · exact .inl ⟨hcapacity, hhead, htail⟩
  · exact .inr ⟨hhead, htail⟩

theorem capacity_resize (r : Ring α) (capacity : ℕ) :
    (r.resize capacity).capacity = max r.capacity capacity := by
  unfold resize
  by_cases hle : capacity ≤ r.capacity
  · rw [if_pos hle, Nat.max_eq_left hle]
  · rw [if_neg hle, Nat.max_eq_right (by omega)]
    split_ifs <;> rfl

theorem fits_resize (h : r.Fits) (capacity : ℕ) : (r.resize capacity).Fits := by
  have hwithin := within_resize h.within capacity
  have hlen := len_resize (r := r) capacity
  have hcapacity := capacity_resize r capacity
  rcases hwithin with ⟨h0, hhead, htail⟩ | ⟨hhead, htail⟩
  · refine .inl ⟨h0, hhead, htail, ?_⟩
    rcases h with ⟨-, -, -, h⟩ | ⟨-, -, h⟩ <;> omega
  · refine .inr ⟨hhead, htail, ?_⟩
    rcases h with ⟨-, -, -, h⟩ | ⟨-, -, h⟩ <;> omega

theorem fits_push (h : r.Fits) (value : α) : (r.push value).Fits := by
  have hput : ∀ q : Ring α, q.Fits → q.len + 1 < q.capacity →
      ({ q with data := update q.data q.tail (some value), tail := (q.tail + 1) % q.capacity,
                len := q.len + 1 } : Ring α).Fits := by
    intro q hq hroom
    obtain ⟨hhead, -, -⟩ := hq.resolve_left (by omega)
    exact .inr ⟨hhead, Nat.mod_lt _ (by omega), hroom⟩
  unfold push
  by_cases hroom : r.len + 1 ≥ r.capacity
  · simp only [if_pos hroom]
    have hlen := len_resize (r := r) (r.len + 2 + (r.len + 2) / 2)
    have hcapacity := capacity_resize r (r.len + 2 + (r.len + 2) / 2)
    exact hput _ (fits_resize h (r.len + 2 + (r.len + 2) / 2)) (by omega)
  · simp only [if_neg hroom]
    exact hput r h (by omega)

theorem fits_popCell (h : r.Fits) {v : Option α} {r' : Ring α} (hpop : r.popCell = some (v, r')) : r'.Fits := by
  unfold popCell at hpop
  split_ifs at hpop with hlen
  cases hpop
  obtain ⟨hhead, htail, hl⟩ := h.resolve_left (by omega)
  exact .inr ⟨Nat.mod_lt _ (by omega), htail, by show r.len - 1 < r.capacity; omega⟩

/-- **One operation** leaves the indices in the array. -/
theorem fits_step {s s' : Ring α × List α} {op : RingOp α} (h : s.1.Fits) (hs : step s op = some s') :
    s'.1.Fits := by
  cases op with
  | push value =>
    cases hs
    exact fits_push h value
  | resize capacity =>
    cases hs
    exact fits_resize h capacity
  | pop =>
    simp only [step, pop_eq_popCell, Option.map_eq_some_iff, Option.bind_eq_some_iff] at hs
    obtain ⟨p, ⟨⟨v, r'⟩, hcell, value, -, rfl⟩, rfl⟩ := hs
    exact fits_popCell h hcell

/-- The cell of the `i`-th element. -/
def nth (r : Ring α) (i : ℕ) : Option α := r.data ((r.head + i) % r.capacity)

/-- A pop leaves the other elements where they are. -/
theorem nth_popCell (h : r.Fits) {v : Option α} {r' : Ring α} (hpop : r.popCell = some (v, r')) :
    v = r.nth 0 ∧ r'.len + 1 = r.len ∧ ∀ i < r'.len, r'.nth i = r.nth (i + 1) := by
  unfold popCell at hpop
  split_ifs at hpop with hlen
  cases hpop
  obtain ⟨hhead, -, hl⟩ := h.resolve_left (by omega)
  refine ⟨?_, ?_, fun i hi => ?_⟩
  · rw [nth, Nat.add_zero, Nat.mod_eq_of_lt hhead]
  · show r.len - 1 + 1 = r.len
    omega
  · have hi' : i < r.len - 1 := hi
    have hindex : ((r.head + 1) % r.capacity + i) % r.capacity = (r.head + (i + 1)) % r.capacity := by
      rw [Nat.mod_add_mod, Nat.add_assoc, Nat.add_comm 1 i]
    have hne : (r.head + (i + 1)) % r.capacity ≠ r.head := by
      rw [mod_of_lt_two_mul (by omega)]
      split <;> omega
    unfold nth
    dsimp only
    rw [hindex, Function.update_of_ne hne]

/-- The pops give the elements from the first one on. -/
theorem pops_eq : ∀ (n : ℕ) {r : Ring α}, r.Fits → (pops n r).1 = (List.range (min n r.len)).map r.nth
  | 0, r, _ => by
    rw [Nat.zero_min]
    rfl
  | n + 1, r, h => by
    unfold pops
    by_cases hlen : r.len = 0
    · have hpop : r.popCell = none := if_pos hlen
      rw [hpop, hlen, Nat.min_zero]
      rfl
    · obtain ⟨⟨v, r'⟩, hpop⟩ : ∃ p, r.popCell = some p := ⟨_, if_neg hlen⟩
      obtain ⟨hv, hl, hnth⟩ := nth_popCell h hpop
      rw [hpop]
      dsimp only
      rw [pops_eq n (fits_popCell h hpop), show min (n + 1) r.len = min n r'.len + 1 by omega,
        List.range_succ_eq_map,
        List.map_cons, List.map_map, hv]
      congr 1
      apply List.map_congr_left
      intro i hi
      exact hnth i (by rw [List.mem_range] at hi; omega)

/-- One pop, and then `n`. -/
theorem pops_succ (n : ℕ) (r : Ring α) : (pops (n + 1) r).1 = (pops 1 r).1 ++ (pops n (pops 1 r).2).1 := by
  cases hpop : r.popCell with
  | none =>
    have hone : pops 1 r = ([], r) := by simp [pops, hpop]
    cases n with
    | zero => simp [pops]
    | succ n => simp [pops, hpop]
  | some p => simp [pops, hpop]

/-- Two rings do not get in each other's way. -/
theorem popBoth_eq : ∀ (order : List Bool) (r r' : Ring α),
    popBoth order r r' = ((pops (order.count true) r).1, (pops (order.count false) r').1)
  | [], _, _ => rfl
  | true :: order, r, r' => by
    rw [List.count_cons_self, List.count_cons_of_ne (by decide), pops_succ]
    simp only [popBoth, popBoth_eq order]
  | false :: order, r, r' => by
    rw [List.count_cons_self, List.count_cons_of_ne (by decide), pops_succ]
    simp only [popBoth, popBoth_eq order]

/-- What the copy constructor puts where. -/
theorem copyCells_apply (hhead : r.head < r.capacity) : ∀ n ≤ r.capacity, ∀ i < n,
    copyCells r n ((r.head + i) % r.capacity) = r.data i
  | n + 1, hn, i, hi => by
    unfold copyCells
    by_cases hin : i = n
    · rw [hin, Nat.add_comm r.head]
      exact Function.update_self ..
    · have hne : (r.head + i) % r.capacity ≠ (n + r.head) % r.capacity := by
        rw [mod_of_lt_two_mul (by omega), mod_of_lt_two_mul (by omega)]
        split <;> split <;> omega
      rw [Function.update_of_ne hne]
      exact copyCells_apply hhead n (by omega) i (by omega)

/-- The elements of the copy are those of the first cells. -/
theorem nth_copy (h : r.Fits) {i : ℕ} (hi : i < r.len) : r.copy.nth i = r.data i := by
  obtain ⟨hhead, -, hl⟩ := h.resolve_left (by omega)
  exact copyCells_apply hhead r.len (Nat.le_of_lt hl) i hi

/-- A ring copies well exactly when its first cells hold its elements. -/
theorem copied_iff (h : r.Fits) : Copied r ↔ ∀ i < r.len, r.data i = r.nth i := by
  have hcopy : r.copy.Fits := h
  constructor
  · intro hc i hi
    have hpops := hc (List.replicate r.len false)
    rw [popBoth_eq, Prod.mk.injEq, List.count_replicate_self, pops_eq r.len hcopy, pops_eq r.len h] at hpops
    have hin : i ∈ List.range (min r.len r.len) := by rwa [Nat.min_self, List.mem_range]
    rw [← List.map_inj_left.mp hpops.2 i hin, nth_copy h hi]
  · intro hcells order
    rw [popBoth_eq, pops_eq _ hcopy, pops_eq (order.count false) h, Prod.mk.injEq]
    refine ⟨rfl, ?_⟩
    apply List.map_congr_left
    intro i hi
    have hi' : i < r.len := Nat.lt_of_lt_of_le (List.mem_range.mp hi) (Nat.min_le_right _ _)
    rw [nth_copy h hi', hcells i hi']

/-- A ring that has its first element in the first cell copies well. -/
theorem copied_of_head (h : r.Fits) (hhead : r.head = 0) : Copied r := by
  rw [copied_iff h]
  intro i hi
  obtain ⟨-, -, hl⟩ := h.resolve_left (by omega)
  rw [nth, hhead, Nat.zero_add, Nat.mod_eq_of_lt (by omega)]

/-- **The copy of a ring is its copy**, for every ring that pushes, pops and growth lead to, if and
only if its first cells hold its elements. -/
theorem copy_pops_iff (ops : List (RingOp α)) (r : Ring α) (out : List α)
    (hrun : Lib.run step ops ({}, []) = some (r, out)) :
    Copied r ↔ ∀ i < r.len, r.data i = r.data ((r.head + i) % r.capacity) :=
  copied_iff (Lib.run_invariant (P := fun s : Ring α × List α => s.1.Fits) (fun _ _ _ => fits_step)
    (.inl ⟨rfl, rfl, rfl, rfl⟩) hrun)

/-- A ring that nothing was popped from. -/
theorem copy_pops_iff_unpopped :
    ∃ r : Ring ℕ, Lib.run step [.push 5, .push 6] ({}, []) = some (r, []) ∧ Copied r :=
  ⟨_, rfl, (copy_pops_iff [.push 5, .push 6] _ [] rfl).mpr (by decide)⟩

/-- The second element is the first one after a pop; the copy has it nowhere. -/
theorem copy_after_pop :
    ∃ r : Ring ℕ, Lib.run step [.push 5, .push 6, .pop, .push 7] ({}, []) = some (r, [5]) ∧ ¬ Copied r := by
  refine ⟨_, rfl, fun hc => ?_⟩
  have hpop := hc [false]
  revert hpop
  decide

end Ring
end WingOS
