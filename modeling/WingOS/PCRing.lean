/-
# The shared ring

`fc::PCRing` of `libcore/ds/pcring.hpp`: a ring of fixed capacity that
producers and consumers share. A section under its lock either finds the ring
full (`produce`) or empty (`consume`, `try_consume`), and a blocking call then
takes the lock again later; or it moves one element. `PCRun` has any number of
threads with such calls under way, each section one step, and records what was
produced and what was consumed, in the order of the sections.

The elements that are produced and not yet consumed are a list that lies on the
circle of cells from the head on, and every other cell is empty (`Repr`); so
the ring is a queue (`Fifo`).

Key definitions: `PCRing`, `PCRing.put`, `PCRing.take`, `PCRun.step`, `PCRun.Fifo`.
Key theorems: `repr_put`, `repr_take`, `fifo_step`, `pcring_fifo`.
-/
import WingOS.Lib.Circle
import WingOS.Lib.Run

namespace WingOS

open Function (update)

/-- `fc::PCRing<T>`. A cell that holds no element is `none`. -/
structure PCRing (α : Type*) where
  capacity : ℕ
  data : ℕ → Option α := fun _ => none
  head : ℕ := 0
  tail : ℕ := 0
  len : ℕ := 0

namespace PCRing

variable {α : Type*}

/-- The end of `produce`, once it has found room. -/
def put (r : PCRing α) (value : α) : PCRing α :=
  { r with
    data := update r.data r.tail (some value)
    tail := (r.tail + 1) % r.capacity
    len := r.len + 1 }

/-- The end of `consume` and `try_consume`, once they have found an element:
what the first cell holds, and the ring without it. -/
def take (r : PCRing α) : Option α × PCRing α :=
  (r.data r.head, { r with
    data := update r.data r.head none
    head := (r.head + 1) % r.capacity
    len := r.len - 1 })

/-- The ring holds the elements of `l` in this order, and nothing else. -/
structure Repr (r : PCRing α) (l : List α) : Prop where
  len : r.len = l.length
  fits : l.length ≤ r.capacity
  head : r.head < r.capacity
  tail : r.tail = (r.head + l.length) % r.capacity
  cells : Lib.OnCircle r.data r.head r.capacity r.capacity l

variable {r : PCRing α} {l : List α}

theorem repr_new {capacity : ℕ} (h : 1 ≤ capacity) : Repr ({ capacity } : PCRing α) [] where
  len := rfl
  fits := Nat.zero_le _
  head := h
  tail := (Nat.zero_mod _).symm
  cells _ _ := rfl

theorem repr_put (h : r.Repr l) (hroom : r.len < r.capacity) (v : α) : (r.put v).Repr (l ++ [v]) := by
  have hlen : l.length < r.capacity := by rwa [← h.len]
  refine ⟨?_, ?_, h.head, ?_, ?_⟩
  · rw [List.length_append, ← h.len]
    rfl
  · rw [List.length_append]
    exact hlen
  · show (r.tail + 1) % r.capacity = _
    rw [h.tail, Nat.mod_add_mod, List.length_append, Nat.add_assoc]
    rfl
  · show Lib.OnCircle (update r.data r.tail (some v)) r.head r.capacity r.capacity (l ++ [v])
    rw [h.tail]
    exact h.cells.push h.head hlen h.fits (.inl (Nat.le_refl _)) (Nat.le_refl _) v

/-- An element that is put does not take the place of another one. -/
theorem put_free (h : r.Repr l) (hroom : r.len < r.capacity) : r.data r.tail = none := by
  rw [h.tail]
  exact h.cells.free (by rwa [← h.len])

/-- A ring with a length has a first element, and gives it. -/
theorem repr_take (h : r.Repr l) (hlen : r.len ≠ 0) :
    ∃ v l', l = v :: l' ∧ r.take.1 = some v ∧ r.take.2.Repr l' := by
  cases l with
  | nil => exact absurd h.len hlen
  | cons v l' =>
    have hfits : l'.length + 1 ≤ r.capacity := h.fits
    have hroom : l'.length < r.capacity := hfits
    refine ⟨v, l', rfl, h.cells.head h.head (by omega), ?_, Nat.le_of_lt hroom, ?_, ?_, ?_⟩
    · show r.len - 1 = l'.length
      rw [h.len, List.length_cons, Nat.add_sub_cancel]
    · exact Nat.mod_lt _ (show 0 < r.capacity by omega)
    · show r.tail = ((r.head + 1) % r.capacity + l'.length) % r.capacity
      rw [h.tail, Lib.mod_succ_add, List.length_cons]
    · exact h.cells.pop h.head hroom (Nat.le_refl _) (.inr ⟨rfl, rfl⟩)

end PCRing

/-! ### Threads on a shared ring -/

inductive PCCall (α : Type*)
  | produce (value : α)
  | consume
  | tryConsume

/-- The ring, the call each thread is inside, and what the sections have moved. -/
structure PCRun (T α : Type*) where
  ring : PCRing α
  pending : T → Option (PCCall α) := fun _ => none
  produced : List α := []
  consumed : List (Option α) := []

/-- A call, and a section of the call that is under way. -/
inductive PCAction (α : Type*)
  | start (call : PCCall α)
  | turn

namespace PCRun

variable {T α : Type*} [DecidableEq T]

/-- The call of the thread `i` ends. -/
def finish (s : PCRun T α) (i : T) : PCRun T α := { s with pending := update s.pending i none }

/-- The section of `produce`: it goes round again when the ring is full. -/
def produce (s : PCRun T α) (i : T) (value : α) : PCRun T α :=
  if s.ring.len < s.ring.capacity then
    { s.finish i with ring := s.ring.put value, produced := s.produced ++ [value] }
  else s

/-- What `consume` and `try_consume` do when there is an element. -/
def takeOne (s : PCRun T α) (i : T) : PCRun T α :=
  { s.finish i with ring := s.ring.take.2, consumed := s.consumed ++ [s.ring.take.1] }

/-- The section of `consume`: it goes round again when the ring is empty. -/
def consume (s : PCRun T α) (i : T) : PCRun T α :=
  if s.ring.len ≠ 0 then s.takeOne i else s

/-- The section of `try_consume`: it fails when the ring is empty. -/
def tryConsume (s : PCRun T α) (i : T) : PCRun T α :=
  if s.ring.len = 0 then s.finish i else s.takeOne i

/-- A step of the thread `i`; `none` when it cannot take it. -/
def step (s : PCRun T α) (op : T × PCAction α) : Option (PCRun T α) :=
  match op.2, s.pending op.1 with
  | .start call, none => some { s with pending := update s.pending op.1 (some call) }
  | .turn, some (.produce value) => some (s.produce op.1 value)
  | .turn, some .consume => some (s.consume op.1)
  | .turn, some .tryConsume => some (s.tryConsume op.1)
  | _, _ => none

/-- **A bounded queue**: what was produced is what was consumed, in the same
order, followed by what the ring stores; it stores no more than its capacity,
and while there is room the cell for the next element is empty. -/
structure Fifo (s : PCRun T α) : Prop where
  queue : ∃ l, s.produced.map some = s.consumed ++ l.map some ∧ s.ring.Repr l
  pre : s.consumed <+: s.produced.map some
  bounded : s.ring.len ≤ s.ring.capacity
  free : s.ring.len < s.ring.capacity → s.ring.data s.ring.tail = none

variable {s s' : PCRun T α}

omit [DecidableEq T] in
theorem Fifo.of_queue {l : List α} (hq : s.produced.map some = s.consumed ++ l.map some)
    (hr : s.ring.Repr l) : s.Fifo where
  queue := ⟨l, hq, hr⟩
  pre := ⟨l.map some, hq.symm⟩
  bounded := hr.len ▸ hr.fits
  free := PCRing.put_free hr

theorem fifo_produce (h : s.Fifo) (i : T) (v : α) : (s.produce i v).Fifo := by
  unfold produce
  by_cases hroom : s.ring.len < s.ring.capacity
  · rw [if_pos hroom]
    obtain ⟨l, hq, hr⟩ := h.queue
    refine .of_queue (l := l ++ [v]) ?_ (PCRing.repr_put hr hroom v)
    calc (s.produced ++ [v]).map some
        = s.produced.map some ++ [some v] := List.map_append
      _ = s.consumed ++ (l.map some ++ [some v]) := by rw [hq, List.append_assoc]
      _ = s.consumed ++ (l ++ [v]).map some := by rw [List.map_append]; rfl
  · rw [if_neg hroom]
    exact h

theorem fifo_takeOne (h : s.Fifo) (hlen : s.ring.len ≠ 0) (i : T) : (s.takeOne i).Fifo := by
  obtain ⟨l, hq, hr⟩ := h.queue
  obtain ⟨v, l', rfl, hv, hr'⟩ := PCRing.repr_take hr hlen
  refine .of_queue (l := l') ?_ hr'
  calc s.produced.map some = s.consumed ++ some v :: l'.map some := hq
    _ = s.consumed ++ [s.ring.take.1] ++ l'.map some := by rw [hv, List.append_cons]

/-- What the steps do to the call of a thread and to the two streams. -/
theorem step_start {i : T} {call : PCCall α} (hs : s.step (i, .start call) = some s') :
    s.pending i = none ∧ s' = { s with pending := update s.pending i (some call) } := by
  cases hidle : s.pending i with
  | none =>
    rw [step, hidle] at hs
    exact ⟨rfl, (Option.some.inj hs).symm⟩
  | some c =>
    rw [step, hidle] at hs
    cases hs

theorem step_produce {i : T} {v : α} (hcall : s.pending i = some (.produce v))
    (hs : s.step (i, .turn) = some s') :
    s' = s ∨ s'.pending = update s.pending i none ∧ s'.produced = s.produced ++ [v] ∧
      s'.consumed = s.consumed := by
  rw [step, hcall] at hs
  obtain rfl := Option.some.inj hs
  unfold produce
  split
  · exact .inr ⟨rfl, rfl, rfl⟩
  · exact .inl rfl

theorem step_consume {i : T} (hcall : s.pending i = some .consume) (hs : s.step (i, .turn) = some s') :
    s' = s ∨ ∃ v, s'.pending = update s.pending i none ∧ s'.produced = s.produced ∧
      s'.consumed = s.consumed ++ [v] := by
  rw [step, hcall] at hs
  obtain rfl := Option.some.inj hs
  unfold consume
  split
  · exact .inr ⟨_, rfl, rfl, rfl⟩
  · exact .inl rfl

/-- **One section** of one thread. -/
theorem fifo_step (h : s.Fifo) {op : T × PCAction α} (hs : s.step op = some s') : s'.Fifo := by
  unfold step at hs
  split at hs
  · cases hs
    exact ⟨h.queue, h.pre, h.bounded, h.free⟩
  · cases hs
    exact fifo_produce h _ _
  · cases hs
    by_cases hlen : s.ring.len ≠ 0
    · rw [consume, if_pos hlen]
      exact fifo_takeOne h hlen _
    · rw [consume, if_neg hlen]
      exact h
  · cases hs
    by_cases hlen : s.ring.len = 0
    · rw [tryConsume, if_pos hlen]
      exact ⟨h.queue, h.pre, h.bounded, h.free⟩
    · rw [tryConsume, if_neg hlen]
      exact fifo_takeOne h hlen _
  · cases hs

/-- **The shared ring is a bounded queue**, in every state that the threads reach. -/
theorem pcring_fifo (capacity : ℕ) (hcapacity : 1 ≤ capacity) (ops : List (T × PCAction α))
    (s : PCRun T α) (hrun : Lib.run step ops { ring := { capacity } } = some s) : s.Fifo :=
  Lib.run_invariant (P := Fifo) (fun _ _ _ h hs => fifo_step h hs)
    (.of_queue (l := []) rfl (PCRing.repr_new hcapacity)) hrun

/-- Two producers and a consumer on a ring of one cell: the second producer
waits until the first element is taken. -/
theorem pcring_fifo_one :
    ∃ s : PCRun (Fin 3) ℕ, Lib.run step [(0, .start (.produce 7)), (1, .start (.produce 8)),
      (0, .turn), (1, .turn), (2, .start .consume), (2, .turn), (1, .turn)]
      { ring := { capacity := 1 } } = some s ∧ s.produced = [7, 8] ∧ s.consumed = [some 7] ∧ s.Fifo := by
  refine ⟨?s, ?hrun, ?hp, ?hc, pcring_fifo 1 (by decide) _ _ ?hrun⟩
  case hrun => rfl
  case hp => rfl
  case hc => rfl

end PCRun
end WingOS
