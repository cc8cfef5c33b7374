/-
# The ring as a queue, with `resize`

Runs of `push`, `pop` and `resize` on a ring, against the queue that the same
operations make. `resize` to more cells moves the elements behind the wrap
point and `_head` with them, and leaves `_tail`; it takes `_head = _tail` for a
full ring. On an empty one that has an array it parts the two indices: the next
element is put at `_tail`, and `_head` points to another cell
(`push_front_iff`). The same happens when an empty ring with one cell grows by
itself. As long as every push onto an empty ring finds the indices together,
and an array of another size than 1, the ring is the queue (`ring_refines`).

Key definitions: `Ring.back`, `Ring.step`, `Ring.specStep`, `Ring.Tracks`,
`Ring.PushesWell`, `Ring.Agrees`.
Key theorems: `tracks_step`, `push_front_iff`, `ring_refines`.
-/
import WingOS.Ring
import WingOS.Lib.Run

namespace WingOS

open Function (update)

/-- What is done to a ring. -/
inductive RingOp (α : Type*)
  | push (value : α)
  | pop
  | resize (capacity : ℕ)

/-- The element that an operation adds. -/
def RingOp.pushed {α : Type*} : RingOp α → Option α
  | .push value => some value
  | _ => none

namespace Ring

variable {α : Type*}

/-- `back()`: the cell before `_tail`, whatever it holds. -/
def back (r : Ring α) : Option α := r.data ((r.tail + r.capacity - 1) % r.capacity)

/-- One operation, with the elements that were popped so far. -/
def step (s : Ring α × List α) : RingOp α → Option (Ring α × List α)
  | .push value => some (s.1.push value, s.2)
  | .pop => s.1.pop.map fun p => (p.2, s.2 ++ [p.1])
  | .resize capacity => some (s.1.resize capacity, s.2)

/-- One operation on a queue; `none` when it is empty and an element is popped. -/
def specStep (q : List α × List α) : RingOp α → Option (List α × List α)
  | .push value => some (q.1 ++ [value], q.2)
  | .pop =>
    match q.1 with
    | [] => none
    | v :: l => some (l, q.2 ++ [v])
  | .resize _ => some q

/-- What a caller sees of the ring is the queue `l`. -/
structure Agrees (r : Ring α) (l : List α) : Prop where
  len : r.len = l.length
  front : l ≠ [] → r.front = l.head?
  back : l ≠ [] → r.back = l.getLast?

/-- The indices are in the array, or there is none yet. -/
def Within (r : Ring α) : Prop :=
  r.capacity = 0 ∧ r.head = 0 ∧ r.tail = 0 ∨ r.head < r.capacity ∧ r.tail < r.capacity

/-- The ring holds `l`; when it is empty, its indices may be apart. -/
structure Tracks (r : Ring α) (l : List α) : Prop where
  within : r.Within
  len : r.len = l.length
  repr : l ≠ [] → r.Repr l

/-- A push onto an empty ring finds the indices together, and does not have to
enlarge an array. -/
def PushesWell (r : Ring α) : RingOp α → Prop
  | .push _ => r.len = 0 → r.head = r.tail ∧ r.capacity ≠ 1
  | _ => True

instance (r : Ring α) : ∀ op, Decidable (r.PushesWell op)
  | .push _ => inferInstanceAs (Decidable (r.len = 0 → r.head = r.tail ∧ r.capacity ≠ 1))
  | .pop => inferInstanceAs (Decidable True)
  | .resize _ => inferInstanceAs (Decidable True)

variable {r : Ring α} {l : List α}

theorem Repr.within (h : r.Repr l) : r.Within := by
  rcases h.shape with ⟨hcapacity, hhead, htail, -⟩ | ⟨h2, hhead, -, htail⟩
  · exact .inl ⟨hcapacity, hhead, htail⟩
  · refine .inr ⟨hhead, ?_⟩
    rw [htail]
    exact Nat.mod_lt _ (by omega)

theorem Repr.tracks (h : r.Repr l) : r.Tracks l := ⟨h.within, h.len, fun _ => h⟩

theorem repr_back (h : r.Repr l) (hne : l ≠ []) : r.back = l.getLast? := by
  have hl := h.len
  have hpos : 0 < l.length := List.length_pos_iff.mpr hne
  obtain ⟨h2, hhead, hlen, htail⟩ := h.shape.resolve_left (by omega)
  have hcell : (r.tail + r.capacity - 1) % r.capacity = (r.head + (l.length - 1)) % r.capacity := by
    rw [htail, Lib.mod_of_lt_two_mul (a := r.head + r.len) (by omega)]
    split
    · have hsum : r.head + r.len + r.capacity - 1 = r.head + (l.length - 1) + r.capacity := by omega
      rw [hsum, Nat.add_mod_right]
    · congr 1
      omega
  unfold back
  rw [hcell, h.cells (l.length - 1) (by omega), List.getLast?_eq_getElem?]

theorem Tracks.agrees (h : r.Tracks l) : r.Agrees l where
  len := h.len
  front hne := by
    cases l with
    | nil => exact absurd rfl hne
    | cons v l => exact repr_front (h.repr hne)
  back hne := repr_back (h.repr hne) hne

/-- An empty ring whose indices are together holds the empty queue. -/
theorem Tracks.repr_nil (h : r.Tracks []) (htogether : r.head = r.tail) (hone : r.capacity ≠ 1) :
    r.Repr [] := by
  refine ⟨h.len, ?_, fun i hi => absurd hi (Nat.not_lt_zero i)⟩
  have hlen : r.len = 0 := h.len
  rcases h.within with ⟨hcapacity, hhead, htail⟩ | ⟨hhead, htail⟩
  · exact .inl ⟨hcapacity, hhead, htail, hlen⟩
  · refine .inr ⟨by omega, hhead, by omega, ?_⟩
    rw [hlen, Nat.add_zero, Nat.mod_eq_of_lt hhead, htogether]

theorem resize_of_le {capacity : ℕ} (h : capacity ≤ r.capacity) : r.resize capacity = r := if_pos h

theorem len_resize (capacity : ℕ) : (r.resize capacity).len = r.len := by
  unfold resize
  split_ifs <;> rfl

/-- **Resizing** keeps the indices inside the array, whatever they are. -/
theorem within_resize (h : r.Within) (capacity : ℕ) : (r.resize capacity).Within := by
  by_cases hle : capacity ≤ r.capacity
  · rwa [resize_of_le hle]
  · unfold resize
    rw [if_neg hle]
    rcases h with ⟨hcapacity, hhead, htail⟩ | ⟨hhead, htail⟩
    · rw [if_pos hcapacity]
      refine .inr ⟨?_, ?_⟩
      · show r.head < capacity
        omega
      · show r.tail < capacity
        omega
    · rw [if_neg (by omega)]
      by_cases hlt : r.head < r.tail
      · rw [if_pos hlt]
        refine .inr ⟨?_, ?_⟩
        · show r.head < capacity
          omega
        · show r.tail < capacity
          omega
      · rw [if_neg hlt]
        refine .inr ⟨?_, ?_⟩
        · show capacity - r.capacity + r.head < capacity
          omega
        · show r.tail < capacity
          omega

/-- A ring with elements keeps them. -/
theorem tracks_resize (h : r.Tracks l) (capacity : ℕ) : (r.resize capacity).Tracks l := by
  refine ⟨within_resize h.within capacity, ?_, fun hne => ?_⟩
  · rw [len_resize, h.len]
  · have hrepr := h.repr hne
    have hl := h.len
    have hpos : 0 < l.length := List.length_pos_iff.mpr hne
    by_cases hle : capacity ≤ r.capacity
    · rwa [resize_of_le hle]
    · obtain ⟨h2, -⟩ := hrepr.shape.resolve_left (by omega)
      exact (repr_resize hrepr (by omega) (by omega) (by omega)).1

theorem tracks_push (h : r.Tracks l) (value : α) (hwell : r.PushesWell (.push value)) :
    (r.push value).Tracks (l ++ [value]) := by
  have hrepr : r.Repr l := by
    by_cases hne : l = []
    · subst hne
      obtain ⟨htogether, hone⟩ := hwell h.len
      exact h.repr_nil htogether hone
    · exact h.repr hne
  exact (repr_push hrepr value).tracks

/-- **One operation** on the ring is the same operation on the queue. -/
theorem tracks_step {q q' : List α × List α} {op : RingOp α} (h : r.Tracks q.1)
    (hwell : r.PushesWell op) (hs : specStep q op = some q') :
    ∃ r', step (r, q.2) op = some (r', q'.2) ∧ r'.Tracks q'.1 := by
  obtain ⟨l, out⟩ := q
  cases op with
  | push value =>
    cases hs
    exact ⟨_, rfl, tracks_push h value hwell⟩
  | resize capacity =>
    cases hs
    exact ⟨_, rfl, tracks_resize h capacity⟩
  | pop =>
    cases l with
    | nil => cases hs
    | cons v l =>
      cases hs
      obtain ⟨r', hpop, hrepr⟩ := repr_pop (h.repr (List.cons_ne_nil v l))
      refine ⟨r', ?_, hrepr.tracks⟩
      show r.pop.map _ = _
      rw [hpop]
      rfl

/-- An element that is pushed onto an empty ring is its first one, whichever it
is, if and only if the push finds the ring as it should. -/
theorem push_front_iff [Nontrivial α] (h : r.Tracks []) :
    (∀ value, (r.push value).front = some value) ↔ r.head = r.tail ∧ r.capacity ≠ 1 := by
  have hlen : r.len = 0 := h.len
  constructor
  · intro hfront
    obtain ⟨v, w, hvw⟩ := exists_pair_ne α
    by_contra hapart
    -- the cell that `_head` points to does not depend on what is pushed
    have hsame : (r.push v).front = (r.push w).front := by
      by_cases hone : r.capacity = 1
      · obtain ⟨hhead, htail⟩ := h.within.resolve_left (by omega)
        have hresize : (r.resize 3).head ≠ (r.resize 3).tail := by
          unfold resize
          rw [if_neg (by omega), if_neg (by omega), if_neg (by omega)]
          show 3 - r.capacity + r.head ≠ r.tail
          omega
        unfold push front
        rw [hlen, hone]
        dsimp only
        rw [if_pos (by omega)]
        exact (Function.update_of_ne hresize _ _).trans (Function.update_of_ne hresize _ _).symm
      · have hne : r.head ≠ r.tail := fun heq => hapart ⟨heq, hone⟩
        have hroom : ¬ 0 + 1 ≥ r.capacity := by
          rcases h.within with ⟨-, hhead, htail⟩ | ⟨hhead, htail⟩ <;> omega
        unfold push front
        rw [hlen]
        dsimp only
        rw [if_neg hroom]
        exact (Function.update_of_ne hne _ _).trans (Function.update_of_ne hne _ _).symm
    rw [hfront, hfront] at hsame
    exact hvw (Option.some.inj hsame)
  · intro ⟨htogether, hone⟩ value
    exact repr_front (repr_push (h.repr_nil htogether hone) value)

/-- A run of the queue is a run of the ring. -/
theorem tracks_run : ∀ (ops : List (RingOp α)) {r : Ring α} {q q' : List α × List α}, r.Tracks q.1 →
    Lib.Meets step (fun s op => s.1.PushesWell op) ops (r, q.2) → Lib.run specStep ops q = some q' →
      ∃ r', Lib.run step ops (r, q.2) = some (r', q'.2) ∧ r'.Tracks q'.1
  | [], r, q, q', h, _, hq => by
    cases hq
    exact ⟨r, rfl, h⟩
  | op :: ops, r, q, q', h, hwell, hq => by
    obtain ⟨q₁, h₁, h₂⟩ := Lib.run_cons_some hq
    obtain ⟨r₁, hr₁, ht₁⟩ := tracks_step h hwell.1 h₁
    obtain ⟨r', hr', ht'⟩ := tracks_run ops ht₁ (hwell.2 _ hr₁) h₂
    refine ⟨r', ?_, ht'⟩
    rw [Lib.run_cons, hr₁]
    exact hr'

/-- The queue gives out what was pushed, in order. -/
theorem pushed_eq : ∀ (ops : List (RingOp α)) {q q' : List α × List α},
    Lib.run specStep ops q = some q' → q'.2 ++ q'.1 = q.2 ++ q.1 ++ ops.filterMap RingOp.pushed
  | [], q, q', h => by
    cases h
    exact (List.append_nil _).symm
  | op :: ops, q, q', h => by
    obtain ⟨q₁, h₁, h₂⟩ := Lib.run_cons_some h
    rw [pushed_eq ops h₂]
    cases op with
    | push value =>
      cases h₁
      simp [RingOp.pushed]
    | resize capacity =>
      cases h₁
      rfl
    | pop =>
      obtain ⟨l, out⟩ := q
      cases l with
      | nil => cases h₁
      | cons v l =>
        cases h₁
        rw [List.filterMap_cons_none rfl, List.append_assoc out, List.singleton_append]

/-- **The ring is a queue** in every run whose pushes find it as they should:
each pop gives the oldest element, and `len`, `head` and `back` are right. -/
theorem ring_refines (ops : List (RingOp α)) (l out : List α)
    (hrun : Lib.run specStep ops ([], []) = some (l, out))
    (hwell : Lib.Meets step (fun s op => s.1.PushesWell op) ops ({}, [])) :
    ∃ r, Lib.run step ops ({}, []) = some (r, out) ∧ r.Agrees l ∧
      out ++ l = ops.filterMap RingOp.pushed := by
  obtain ⟨r, hr, ht⟩ := tracks_run ops repr_empty.tracks hwell hrun
  exact ⟨r, hr, ht.agrees, pushed_eq ops hrun⟩

/-- A ring that wraps, is resized, and is used up. -/
theorem ring_refines_wrapped :
    ∃ r : Ring ℕ, Lib.run step [.push 1, .push 2, .pop, .push 3, .resize 9, .push 4, .pop, .pop]
      ({}, []) = some (r, [1, 2, 3]) ∧ r.Agrees [4] ∧ [1, 2, 3] ++ [4] = [1, 2, 3, 4] := by
  refine ring_refines [.push 1, .push 2, .pop, .push 3, .resize 9, .push 4, .pop, .pop] [4] [1, 2, 3]
    rfl (by decide)

/-- An empty ring is enlarged: the element pushed then is not the one popped,
and with a single cell from the start there is none to pop. -/
theorem enlarged_empty :
    (∃ r : Ring ℕ, Lib.run step [.push 1, .pop, .resize 9, .push 2] ({}, []) = some (r, [1]) ∧
      r.len = 1 ∧ r.front ≠ some 2 ∧ (r.pop.map Prod.fst) ≠ some 2) ∧
    ∃ r : Ring ℕ, Lib.run step [.resize 1, .push 2] ({}, []) = some (r, []) ∧
      r.len = 1 ∧ r.front ≠ some 2 :=
  ⟨⟨_, rfl, by decide, by decide, by decide⟩, ⟨_, rfl, by decide, by decide⟩⟩

end Ring
end WingOS
