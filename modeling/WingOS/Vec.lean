/-
# `Vec`

The variables of `libcore/ds/vec.hpp` and the memory they keep their elements in:
each call of `malloc` or `realloc` gives a block of its own, and the slots of a
block are raw or hold an object. An operation gets through only if each slot it
constructs in is raw, and each one it reads, assigns to or destroys holds an
object; `free` forgets what the slots of its block hold.

`moved k` is what is left of an element `k` that was moved from. Allocation
succeeds.

Key definitions: `Vec`, `State`, `reserve`, `push`, `popAt`, `insert`, `softAdd`,
`Sound`, `Becomes`.
Key theorems: `construct_becomes`, `moveOut_becomes`, `reserve_becomes`,
`clear_becomes`, `free_becomes`.
-/
import Mathlib.Logic.Equiv.Basic
import Mathlib.Logic.Equiv.Prod
import WingOS.Lib.Run
import WingOS.Lib.Slots

namespace WingOS
namespace VecHeap

open Lib (Slots run run_range)
open Lib.Slots (Accounted accounted_construct accounted_destroy accounted_modify accounted_rename construct_eq
  destroy_eq modify_eq)

/-- The fields of a `Vec`; `data` is the block `_data` points to. -/
structure Vec where
  data : Option ℕ
  count : ℕ
  capacity : ℕ
  deriving DecidableEq

/-- `Vec()`. -/
def Vec.empty : Vec := ⟨none, 0, 0⟩

/-- The variables, the sizes of the blocks that are allocated, and their slots. -/
structure State (ι α : Type) where
  vars : ι → Option Vec
  size : ℕ → Option ℕ
  next : ℕ
  slots : Slots (ℕ × ℕ) α

variable {ι α : Type} [DecidableEq ι]

namespace State

def setVec (s : State ι α) (x : ι) (o : Option Vec) : State ι α := { s with vars := Function.update s.vars x o }

def setCount (s : State ι α) (x : ι) (n : ℕ) : State ι α :=
  s.setVec x ((s.vars x).map fun v => { v with count := n })

def dataOf (s : State ι α) (x : ι) : Option ℕ := (s.vars x).bind Vec.data

/-- Where `_data[i]` is; it has to be in the block. -/
def addr (s : State ι α) (x : ι) (i : ℕ) : Option (ℕ × ℕ) := do
  let b ← s.dataOf x
  let n ← s.size b
  if i < n then some (b, i) else none

/-- `new (&_data[i]) T(k)`. -/
def construct (s : State ι α) (x : ι) (i : ℕ) (k : α) : Option (State ι α) := do
  let a ← s.addr x i
  let slots ← s.slots.construct a k
  some { s with slots }

/-- `_data[i].~T()`. -/
def destroy (s : State ι α) (x : ι) (i : ℕ) : Option (State ι α) := do
  let a ← s.addr x i
  let slots ← s.slots.destroy (fun _ => true) a
  some { s with slots }

/-- `_data[i] = k`. -/
def assign (s : State ι α) (x : ι) (i : ℕ) (k : α) : Option (State ι α) := do
  let a ← s.addr x i
  let slots ← s.slots.modify (fun _ => true) a fun _ => k
  some { s with slots }

/-- The element `_data[i]`. -/
def read (s : State ι α) (x : ι) (i : ℕ) : Option α := do
  let a ← s.addr x i
  (s.slots.slot a).map Prod.snd

/-- `_data = mem_alloc(n)`, and the capacity that goes with it. -/
def alloc (s : State ι α) (x : ι) (n : ℕ) : State ι α :=
  { s with
    vars := Function.update s.vars x ((s.vars x).map fun v => { v with data := some s.next, capacity := n })
    size := Function.update s.size s.next (some n)
    next := s.next + 1 }

/-- The slots of the block `b` go, as they are, to the block `c`. -/
def relocate (b c : ℕ) (a : ℕ × ℕ) : ℕ × ℕ := (Equiv.swap b c a.1, a.2)

/-- `_data = mem_realloc(_data, n)`, and the capacity that goes with it. -/
def realloc (s : State ι α) (x : ι) (n : ℕ) : Option (State ι α) :=
  match s.dataOf x with
  | none => some (s.alloc x n)
  | some b =>
    match s.size b with
    | none => none
    | some _ =>
      some { s.alloc x n with
        size := Function.update (Function.update s.size b none) s.next (some n)
        slots := s.slots.rename (relocate b s.next) }

/-- `mem_free(_data)`. -/
def free (s : State ι α) (x : ι) : Option (State ι α) :=
  match s.dataOf x with
  | none => some s
  | some b =>
    match s.size b with
    | none => none
    | some _ =>
      some { s with
        size := Function.update s.size b none
        slots := { s.slots with slot := fun a => if a.1 = b then none else s.slots.slot a } }

def reserve (s : State ι α) (x : ι) (capacity : ℕ) : Option (State ι α) := do
  let v ← s.vars x
  let ncap := max capacity 8
  if v.capacity = 0 ∧ 0 < ncap then some (s.alloc x (ncap * 2))
  else if v.capacity < ncap then s.realloc x (ncap * 2)
  else some s

def clear (s : State ι α) (x : ι) : Option (State ι α) := do
  let v ← s.vars x
  let s ← run (fun s i => s.destroy x i) (List.range' 0 v.count) s
  some (s.setCount x 0)

def release (s : State ι α) (x : ι) : Option (State ι α) := do
  let v ← s.vars x
  if v.data ≠ none ∧ v.capacity ≠ 0 then
    let s ← s.clear x
    let v ← s.vars x
    let s ← s.free x
    some (s.setVec x (some { v with data := none, capacity := 0 }))
  else some s

def push (s : State ι α) (x : ι) (value : α) : Option (State ι α) := do
  let v ← s.vars x
  let s ← s.reserve x (v.count + 1)
  let s ← s.construct x v.count value
  some (s.setCount x (v.count + 1))

/-- `for (i < n) new (&x[count + i]) T(y[i])`. -/
def copyElements (s : State ι α) (x : ι) (count : ℕ) (y : ι) (n : ℕ) : Option (State ι α) :=
  run (fun s i => do
    let k ← s.read y i
    s.construct x (count + i) k) (List.range' 0 n) s

/-- `Vec(const Vec &other)`. -/
def copyConstruct (s : State ι α) (x other : ι) : Option (State ι α) := do
  let w ← s.vars other
  let s := s.setVec x (some Vec.empty)
  if w.count ≠ 0 then
    let s ← (s.alloc x w.capacity).copyElements x 0 other w.count
    some (s.setCount x w.count)
  else some s

/-- `Vec(Vec &&other)`. -/
def moveConstruct (s : State ι α) (x other : ι) : Option (State ι α) := do
  let w ← s.vars other
  some ((s.setVec x (some w)).setVec other (some Vec.empty))

/-- `operator=(const Vec &other)`. -/
def copyAssign (s : State ι α) (x other : ι) : Option (State ι α) :=
  if x = other then some s
  else do
    let s ← s.clear x
    let w ← s.vars other
    if w.count = 0 then some (s.setCount x 0)
    else
      let s ← s.reserve x w.count
      let s ← s.copyElements x 0 other w.count
      some (s.setCount x w.count)

/-- `operator=(Vec &&other)`. -/
def moveAssign (s : State ι α) (x other : ι) : Option (State ι α) :=
  if x = other then some s
  else do
    let v ← s.vars x
    let w ← s.vars other
    some ((s.setVec x (some w)).setVec other (some v))

/-- `operator+=(const Vec &other)`. -/
def addCopy (s : State ι α) (x other : ι) : Option (State ι α) := do
  let v ← s.vars x
  let w ← s.vars other
  let s ← s.reserve x (v.count + w.count)
  let s ← s.copyElements x v.count other w.count
  some (s.setCount x (v.count + w.count))

section Moves

variable (moved : α → α)

/-- `std::move(_data[i])`, into something else. -/
def moveOut (s : State ι α) (x : ι) (i : ℕ) : Option (α × State ι α) := do
  let k ← s.read x i
  let s ← s.assign x i (moved k)
  some (k, s)

/-- `_data[i] = std::move(_data[j])`. -/
def shift (s : State ι α) (x : ι) (i j : ℕ) : Option (State ι α) := do
  let r ← s.moveOut moved x j
  r.2.assign x i r.1

/-- `pop()`, and the value it gives. -/
def pop (s : State ι α) (x : ι) : Option (State ι α × α) := do
  let v ← s.vars x
  if 0 < v.count then
    let r ← (s.setCount x (v.count - 1)).moveOut moved x (v.count - 1)
    let s ← r.2.destroy x (v.count - 1)
    some (s, r.1)
  else none

/-- `pop(id)`. -/
def popAt (s : State ι α) (x : ι) (id : ℕ) : Option (State ι α × α) := do
  let v ← s.vars x
  if v.count ≤ id then none
  else
    let r ← s.moveOut moved x id
    let s ← run (fun s i => s.shift moved x i (i + 1)) (List.range' id (v.count - 1 - id)) r.2
    let s ← s.destroy x (v.count - 1)
    some (s.setCount x (v.count - 1), r.1)

def insert (s : State ι α) (x : ι) (id : ℕ) (el : α) : Option (State ι α) := do
  let v ← s.vars x
  -- `id` becomes -1
  if v.count < id ∧ v.count = 0 then none
  else
    let id := if v.count < id then v.count - 1 else id
    let s ← if v.count = v.capacity then s.reserve x (v.capacity * 2) else some s
    let s ← run (fun s k => s.shift moved x (v.count - k) (v.count - k - 1)) (List.range' 0 (v.count - id)) s
    let s ← s.construct x id el
    some (s.setCount x (v.count + 1))

/-- `for (i < n) new (&x[count + i]) T(std::move(y[i]))`. -/
def moveElements (s : State ι α) (x : ι) (count : ℕ) (y : ι) (n : ℕ) : Option (State ι α) :=
  run (fun s i => do
    let r ← s.moveOut moved y i
    r.2.construct x (count + i) r.1) (List.range' 0 n) s

/-- `push_elements(Vec &&arr)`. -/
def pushElements (s : State ι α) (x arr : ι) : Option (State ι α) := do
  let v ← s.vars x
  let w ← s.vars arr
  let s ← s.reserve x (v.count + w.count)
  let s ← s.moveElements moved x v.count arr w.count
  some (s.setCount x (v.count + w.count))

/-- `soft_add(Vec &rhs)`. -/
def softAdd (s : State ι α) (x rhs : ι) : Option (State ι α) := do
  let s ← s.pushElements moved x rhs
  s.clear rhs

/-- `operator+=(Vec &&other)`: the elements of `other` are moved from, and its
block freed. -/
def addMove (s : State ι α) (x other : ι) : Option (State ι α) := do
  let s ← s.pushElements moved x other
  let s ← s.free other
  some (s.setVec other (some Vec.empty))

end Moves

/-- `~Vec()`. -/
def destruct (s : State ι α) (x : ι) : Option (State ι α) := do
  let s ← s.release x
  some (s.setVec x none)

/-- What is in the slots of a variable's block. -/
def cells (s : State ι α) (x : ι) (i : ℕ) : Option α :=
  (s.dataOf x).bind fun b => (s.slots.slot (b, i)).map Prod.snd

/-- **The memory is sound**: every object was destroyed once or is in one slot of
an allocated block, and each block is the one of exactly one variable. -/
structure Sound (s : State ι α) : Prop where
  accounted : Accounted s.slots
  fresh : ∀ b, s.next ≤ b → s.size b = none
  raw : ∀ b i, s.size b = none → s.slots.slot (b, i) = none
  unbacked : ∀ x v, s.vars x = some v → v.data = none → v.capacity = 0
  backed : ∀ x v b, s.vars x = some v → v.data = some b → 0 < v.capacity ∧ s.size b = some v.capacity
  apart : ∀ x y b, s.dataOf x = some b → s.dataOf y = some b → x = y
  owned : ∀ b, s.size b ≠ none → ∃ x, s.dataOf x = some b

/-- The step gets through, with these variables and elements. -/
def Becomes (r : Option (State ι α)) (vars : ι → Option Vec) (cells : ι → ℕ → Option α) : Prop :=
  ∃ s', r = some s' ∧ s'.Sound ∧ s'.vars = vars ∧ s'.cells = cells

/-- The elements, with one slot changed. -/
def setCell (c : ι → ℕ → Option α) (x : ι) (i : ℕ) (o : Option α) : ι → ℕ → Option α :=
  Function.update c x (Function.update (c x) i o)

section Primitives

variable {s : State ι α} {x : ι} {v : Vec} {i : ℕ} {k : α}

omit [DecidableEq ι] in
theorem dataOf_eq (hv : s.vars x = some v) : s.dataOf x = v.data := by
  rw [dataOf, hv, Option.bind_some]

omit [DecidableEq ι] in
theorem cells_eq {b : ℕ} (hb : s.dataOf x = some b) :
    s.cells x i = (s.slots.slot (b, i)).map Prod.snd := by
  rw [cells, hb, Option.bind_some]

omit [DecidableEq ι] in
/-- The block of an index below the capacity. -/
theorem Sound.addr (h : s.Sound) (hv : s.vars x = some v) (hi : i < v.capacity) :
    ∃ b, s.dataOf x = some b ∧ s.size b ≠ none ∧ s.addr x i = some (b, i) := by
  cases hdata : v.data with
  | none => exact absurd (h.unbacked x v hv hdata) (by omega)
  | some b =>
    have hb : s.dataOf x = some b := by rw [dataOf_eq hv, hdata]
    have hsize : s.size b = some v.capacity := (h.backed x v b hv hdata).2
    refine ⟨b, hb, by rw [hsize]; exact Option.some_ne_none _, ?_⟩
    simp only [State.addr, hb, hsize, Option.bind_eq_bind, Option.bind_some]
    exact if_pos hi

/-- The slot of one variable changes. -/
theorem cells_put (h : s.Sound) {b : ℕ} (hb : s.dataOf x = some b) {slots : Slots (ℕ × ℕ) α}
    {o : Option (ℕ × α)} (hslot : slots.slot = Function.update s.slots.slot (b, i) o) :
    { s with slots := slots }.cells = setCell s.cells x i (o.map Prod.snd) := by
  funext y j
  by_cases hy : y = x
  · subst hy
    rw [setCell, Function.update_self, cells_eq (s := { s with slots := slots }) hb, hslot]
    by_cases hj : j = i
    · rw [hj, Function.update_self, Function.update_self]
    · have hne : (b, j) ≠ (b, i) := fun heq => hj (Prod.mk.inj heq).2
      rw [Function.update_of_ne hj, Function.update_of_ne hne, cells_eq hb]
  · rw [setCell, Function.update_of_ne hy]
    cases hc : s.dataOf y with
    | none => simp only [cells, show ({ s with slots := slots } : State ι α).dataOf y = none from hc, hc,
        Option.bind_none]
    | some c =>
      have hne : (c, j) ≠ (b, i) := fun heq => hy (h.apart y x b ((Prod.mk.inj heq).1 ▸ hc) hb)
      rw [cells_eq (s := { s with slots := slots }) hc, hslot, Function.update_of_ne hne, cells_eq hc]

omit [DecidableEq ι] in
/-- The slots of an allocated block may change. -/
theorem Sound.withSlots (h : s.Sound) {b : ℕ} (hsize : s.size b ≠ none) {slots : Slots (ℕ × ℕ) α}
    {o : Option (ℕ × α)} (hslot : slots.slot = Function.update s.slots.slot (b, i) o)
    (haccounted : Accounted slots) : { s with slots := slots }.Sound where
  accounted := haccounted
  fresh := h.fresh
  raw c j hc := by
    have hne : (c, j) ≠ (b, i) := fun heq => hsize ((Prod.mk.inj heq).1 ▸ hc)
    rw [show ({ s with slots := slots } : State ι α).slots.slot = slots.slot from rfl, hslot,
      Function.update_of_ne hne]
    exact h.raw c j hc
  unbacked := h.unbacked
  backed := h.backed
  apart := h.apart
  owned := h.owned

theorem construct_becomes (h : s.Sound) (hv : s.vars x = some v) (hi : i < v.capacity)
    (hraw : s.cells x i = none) (k : α) : Becomes (s.construct x i k) s.vars (setCell s.cells x i (some k)) := by
  obtain ⟨b, hb, hsize, haddr⟩ := h.addr hv hi
  have hslot : s.slots.slot (b, i) = none := by rwa [cells_eq hb, Option.map_eq_none_iff] at hraw
  refine ⟨_, ?_, h.withSlots hsize rfl (accounted_construct h.accounted hslot k), rfl,
    cells_put h hb (o := some (s.slots.next, k)) rfl⟩
  simp only [construct, haddr, construct_eq hslot, Option.bind_eq_bind, Option.bind_some]

theorem destroy_becomes (h : s.Sound) (hv : s.vars x = some v) (hi : i < v.capacity)
    (hk : s.cells x i = some k) : Becomes (s.destroy x i) s.vars (setCell s.cells x i none) := by
  obtain ⟨b, hb, hsize, haddr⟩ := h.addr hv hi
  rw [cells_eq hb] at hk
  obtain ⟨⟨id, k'⟩, hslot, -⟩ := Option.map_eq_some_iff.mp hk
  refine ⟨_, ?_, h.withSlots hsize rfl (accounted_destroy h.accounted hslot), rfl,
    cells_put h hb (o := none) rfl⟩
  simp only [destroy, haddr, destroy_eq (p := fun _ => true) hslot rfl, Option.bind_eq_bind, Option.bind_some]

theorem assign_becomes (h : s.Sound) (hv : s.vars x = some v) (hi : i < v.capacity)
    (hk : s.cells x i = some k) (k' : α) : Becomes (s.assign x i k') s.vars (setCell s.cells x i (some k')) := by
  obtain ⟨b, hb, hsize, haddr⟩ := h.addr hv hi
  rw [cells_eq hb] at hk
  obtain ⟨⟨id, k''⟩, hslot, -⟩ := Option.map_eq_some_iff.mp hk
  refine ⟨_, ?_, h.withSlots hsize rfl (accounted_modify h.accounted hslot k'), rfl,
    cells_put h hb (o := some (id, k')) rfl⟩
  simp only [assign, haddr, modify_eq (p := fun _ => true) hslot rfl, Option.bind_eq_bind, Option.bind_some]

omit [DecidableEq ι] in
theorem read_eq (h : s.Sound) (hv : s.vars x = some v) (hi : i < v.capacity) : s.read x i = s.cells x i := by
  obtain ⟨b, hb, -, haddr⟩ := h.addr hv hi
  simp only [read, haddr, cells_eq hb, Option.bind_eq_bind, Option.bind_some]

theorem moveOut_becomes (moved : α → α) (h : s.Sound) (hv : s.vars x = some v) (hi : i < v.capacity)
    (hk : s.cells x i = some k) :
    ∃ s', s.moveOut moved x i = some (k, s') ∧ s'.Sound ∧ s'.vars = s.vars ∧
      s'.cells = setCell s.cells x i (some (moved k)) := by
  obtain ⟨s', hassign, hafter⟩ := assign_becomes h hv hi hk (moved k)
  refine ⟨s', ?_, hafter⟩
  simp only [moveOut, read_eq h hv hi, hk, hassign, Option.bind_eq_bind, Option.bind_some]

end Primitives

section Blocks

variable {s s' : State ι α} {x : ι} {v : Vec} {o : Option Vec} {b n : ℕ}

theorem dataOf_update (hvars : s'.vars = Function.update s.vars x o) :
    s'.dataOf = Function.update s.dataOf x (o.bind Vec.data) := by
  funext y
  by_cases hy : y = x
  · simp only [dataOf, hvars, hy, Function.update_self]
  · simp only [dataOf, hvars, Function.update_of_ne hy]

omit [DecidableEq ι] in
theorem Sound.live (h : s.Sound) (hb : s.dataOf x = some b) : s.size b ≠ none := by
  obtain ⟨v, hv, hdata⟩ := Option.bind_eq_some_iff.mp hb
  rw [(h.backed x v b hv hdata).2]
  exact Option.some_ne_none _

omit [DecidableEq ι] in
theorem Sound.ne_next (h : s.Sound) (hb : s.dataOf x = some b) : b ≠ s.next := fun heq =>
  h.live hb (h.fresh b (Nat.le_of_eq heq.symm))

/-- What a change of one variable and its block leaves: the elements, and the
blocks of the others. -/
structure Rebinds (s s' : State ι α) (x : ι) (o : Option Vec) : Prop where
  vars : s'.vars = Function.update s.vars x o
  accounted : Accounted s'.slots
  fresh : ∀ b, s'.next ≤ b → s'.size b = none
  raw : ∀ b i, s'.size b = none → s'.slots.slot (b, i) = none
  unbacked : ∀ v, o = some v → v.data = none → v.capacity = 0
  backed : ∀ v b, o = some v → v.data = some b → 0 < v.capacity ∧ s'.size b = some v.capacity ∧
    ∀ y, y ≠ x → s.dataOf y ≠ some b
  owned : ∀ b, s'.size b ≠ none → o.bind Vec.data = some b ∨ ∃ y, y ≠ x ∧ s.dataOf y = some b
  other : ∀ y b, y ≠ x → s.dataOf y = some b → s'.size b = s.size b ∧
    ∀ i, s'.slots.slot (b, i) = s.slots.slot (b, i)
  cells : ∀ i, s'.cells x i = s.cells x i

theorem Rebinds.sound (hr : Rebinds s s' x o) (h : s.Sound) : s'.Sound where
  accounted := hr.accounted
  fresh := hr.fresh
  raw := hr.raw
  unbacked y w hw hnone := by
    rw [hr.vars] at hw
    by_cases hy : y = x
    · rw [hy, Function.update_self] at hw
      exact hr.unbacked w hw hnone
    · rw [Function.update_of_ne hy] at hw
      exact h.unbacked y w hw hnone
  backed y w b hw hb := by
    rw [hr.vars] at hw
    by_cases hy : y = x
    · rw [hy, Function.update_self] at hw
      obtain ⟨hpos, hsize, -⟩ := hr.backed w b hw hb
      exact ⟨hpos, hsize⟩
    · rw [Function.update_of_ne hy] at hw
      rw [(hr.other y b hy (by rw [dataOf_eq hw, hb])).1]
      exact h.backed y w b hw hb
  apart y z b hy hz := by
    have hlone : ∀ y, y ≠ x → s.dataOf y = some b → o.bind Vec.data ≠ some b := fun y hy hb hob => by
      obtain ⟨w, hw, hwb⟩ := Option.bind_eq_some_iff.mp hob
      exact (hr.backed w b hw hwb).2.2 y hy hb
    rw [dataOf_update hr.vars] at hy hz
    by_cases hyx : y = x
    · by_cases hzx : z = x
      · rw [hyx, hzx]
      · rw [hyx, Function.update_self] at hy
        rw [Function.update_of_ne hzx] at hz
        exact absurd hy (hlone z hzx hz)
    · rw [Function.update_of_ne hyx] at hy
      by_cases hzx : z = x
      · rw [hzx, Function.update_self] at hz
        exact absurd hz (hlone y hyx hy)
      · rw [Function.update_of_ne hzx] at hz
        exact h.apart y z b hy hz
  owned b hb := by
    rw [dataOf_update hr.vars]
    rcases hr.owned b hb with hx | ⟨y, hyx, hy⟩
    · exact ⟨x, by rw [Function.update_self, hx]⟩
    · exact ⟨y, by rw [Function.update_of_ne hyx, hy]⟩

theorem Rebinds.becomes (hr : Rebinds s s' x o) (h : s.Sound) :
    Becomes (some s') (Function.update s.vars x o) s.cells := by
  refine ⟨s', rfl, hr.sound h, hr.vars, ?_⟩
  funext y i
  by_cases hy : y = x
  · rw [hy, hr.cells i]
  · have hdata : s'.dataOf y = s.dataOf y := by rw [dataOf_update hr.vars, Function.update_of_ne hy]
    cases hb : s.dataOf y with
    | none => rw [State.cells, State.cells, hdata, hb, Option.bind_none, Option.bind_none]
    | some b => rw [cells_eq (hdata.trans hb), cells_eq hb, (hr.other y b hy hb).2 i]

/-- A variable keeps its block, or has none before and after. -/
theorem setVec_becomes (h : s.Sound) (hdata : o.bind Vec.data = s.dataOf x)
    (hcapacity : ∀ w, o = some w → w.data = none ∧ w.capacity = 0 ∨
      ∃ v, s.vars x = some v ∧ v.capacity = w.capacity) :
    Becomes (some (s.setVec x o)) (Function.update s.vars x o) s.cells := by
  refine Rebinds.becomes ⟨rfl, h.accounted, h.fresh, h.raw, fun w hw hnone => ?_, fun w b hw hb => ?_,
    fun b hb => ?_, fun _ _ _ _ => ⟨rfl, fun _ => rfl⟩, fun i => ?_⟩ h
  · rcases hcapacity w hw with ⟨-, hzero⟩ | ⟨v, hv, hcap⟩
    · exact hzero
    · rw [← hcap]
      refine h.unbacked x v hv ?_
      rw [← dataOf_eq hv, ← hdata, hw, Option.bind_some, hnone]
  · have hxb : s.dataOf x = some b := by rw [← hdata, hw, Option.bind_some, hb]
    rcases hcapacity w hw with ⟨hnone, -⟩ | ⟨v, hv, hcap⟩
    · exact absurd (hnone.symm.trans hb) (by simp)
    · obtain ⟨hpos, hsize⟩ := h.backed x v b hv (by rw [← dataOf_eq hv, hxb])
      exact ⟨hcap ▸ hpos, hcap ▸ hsize, fun y hy hyb => hy (h.apart y x b hyb hxb)⟩
  · obtain ⟨y, hy⟩ := h.owned b hb
    by_cases hyx : y = x
    · exact Or.inl (by rw [hdata, ← hyx, hy])
    · exact Or.inr ⟨y, hyx, hy⟩
  · rw [cells, cells, dataOf_update (s := s) (o := o) rfl, Function.update_self, hdata]
    rfl

/-- Only the count of a variable changes. -/
theorem setCount_becomes (h : s.Sound) (hv : s.vars x = some v) (n : ℕ) :
    Becomes (some (s.setCount x n)) (Function.update s.vars x (some { v with count := n })) s.cells := by
  rw [setCount, hv]
  refine setVec_becomes h (by rw [dataOf_eq hv]; rfl) fun w hw => Or.inr ⟨v, hv, ?_⟩
  rw [Option.map_some, Option.some.injEq] at hw
  rw [← hw]

/-- The next block replaces the one of a variable: the elements are in the new
block, and nothing is left of the old one. -/
theorem newBlock_becomes (h : s.Sound) (hv : s.vars x = some v) (hn : 0 < n) {size : ℕ → Option ℕ}
    {slots : Slots (ℕ × ℕ) α} (haccounted : Accounted slots) (hnext : size s.next = some n)
    (hnew : ∀ j, (slots.slot (s.next, j)).map Prod.snd = s.cells x j)
    (hold : ∀ c, v.data = some c → size c = none ∧ ∀ j, slots.slot (c, j) = none)
    (hother : ∀ c, c ≠ s.next → v.data ≠ some c → size c = s.size c ∧
      ∀ j, slots.slot (c, j) = s.slots.slot (c, j)) :
    Becomes (some { s.alloc x n with size := size, slots := slots })
      (Function.update s.vars x (some { v with data := some s.next, capacity := n })) s.cells := by
  have hvars : (s.alloc x n).vars =
      Function.update s.vars x (some { v with data := some s.next, capacity := n }) := by
    rw [alloc, hv]
    rfl
  refine Rebinds.becomes ⟨hvars, haccounted, fun c hc => ?_, fun c j hc => ?_, fun w hw hnone => ?_,
    fun w c hw hc => ?_, fun c hc => ?_, fun y c hy hc => ?_, fun j => ?_⟩ h
  · have hlt : s.next + 1 ≤ c := hc
    by_cases hvc : v.data = some c
    · exact (hold c hvc).1
    · exact (hother c (by omega) hvc).1.trans (h.fresh c (by omega))
  · by_cases hvc : v.data = some c
    · exact (hold c hvc).2 j
    · have hne : c ≠ s.next := fun heq => by
        rw [heq] at hc
        exact absurd (hnext.symm.trans hc) (by simp)
      obtain ⟨hsame, hslot⟩ := hother c hne hvc
      exact (hslot j).trans (h.raw c j (hsame.symm.trans hc))
  · rw [← Option.some.inj hw] at hnone
    exact absurd hnone (by simp)
  · obtain rfl := Option.some.inj hw
    obtain rfl := Option.some.inj hc
    exact ⟨hn, hnext, fun y _ hy => h.ne_next hy rfl⟩
  · by_cases hcn : c = s.next
    · exact Or.inl (by rw [hcn]; rfl)
    · have hvc : v.data ≠ some c := fun hvc => hc (hold c hvc).1
      obtain ⟨y, hy⟩ := h.owned c fun hnone => hc ((hother c hcn hvc).1.trans hnone)
      exact Or.inr ⟨y, fun heq => hvc (by rw [← dataOf_eq hv, ← heq, hy]), hy⟩
  · exact hother c (h.ne_next hc) fun hvc => hy (h.apart y x c hc (by rw [dataOf_eq hv, hvc]))
  · have hdata : ({ s.alloc x n with size := size, slots := slots } : State ι α).dataOf x = some s.next :=
      (congrFun (dataOf_update (s := s) hvars) x).trans (Function.update_self ..)
    exact (cells_eq hdata).trans (hnew j)

/-- `malloc`, for a variable without a block. -/
theorem alloc_becomes (h : s.Sound) (hv : s.vars x = some v) (hdata : v.data = none) (hn : 0 < n) :
    Becomes (some (s.alloc x n))
      (Function.update s.vars x (some { v with data := some s.next, capacity := n })) s.cells := by
  refine newBlock_becomes h hv hn h.accounted (Function.update_self ..) (fun j => ?_) (fun c hc => ?_)
    fun c hc _ => ⟨Function.update_of_ne hc _ _, fun _ => rfl⟩
  · rw [h.raw s.next j (h.fresh s.next (Nat.le_refl _)), cells, dataOf_eq hv, hdata]
    rfl
  · exact absurd (hdata.symm.trans hc) (by simp)

theorem relocate_bijective (b c : ℕ) : Function.Bijective (relocate b c) :=
  (Equiv.prodCongr (Equiv.swap b c) (Equiv.refl ℕ)).bijective

/-- `realloc` gives the next block, with the objects of the old one. -/
theorem realloc_becomes (h : s.Sound) (hv : s.vars x = some v) (hn : 0 < n) :
    Becomes (s.realloc x n)
      (Function.update s.vars x (some { v with data := some s.next, capacity := n })) s.cells := by
  cases hdata : v.data with
  | none =>
    rw [realloc, dataOf_eq hv, hdata]
    exact alloc_becomes h hv hdata hn
  | some b =>
    have hb : s.dataOf x = some b := by rw [dataOf_eq hv, hdata]
    have hsize : s.size b = some v.capacity := (h.backed x v b hv hdata).2
    rw [realloc, hb]
    simp only [hsize]
    refine newBlock_becomes h hv hn (accounted_rename h.accounted (relocate_bijective b s.next))
      (Function.update_self ..) (fun j => ?_) (fun c hc => ?_) fun c hcn hvc => ?_
    · rw [cells_eq hb]
      simp only [Slots.rename, Function.comp_apply, relocate, Equiv.swap_apply_right]
    · obtain rfl := Option.some.inj (hdata.symm.trans hc)
      refine ⟨by rw [Function.update_of_ne (h.ne_next hb), Function.update_self], fun j => ?_⟩
      simp only [Slots.rename, Function.comp_apply, relocate, Equiv.swap_apply_left]
      exact h.raw s.next j (h.fresh s.next (Nat.le_refl _))
    · have hcb : c ≠ b := fun heq => hvc (by rw [hdata, heq])
      refine ⟨by rw [Function.update_of_ne hcn, Function.update_of_ne hcb], fun j => ?_⟩
      simp only [Slots.rename, Function.comp_apply, relocate, Equiv.swap_apply_of_ne_of_ne hcb hcn]

omit [DecidableEq ι] in
/-- A block without objects can be forgotten. -/
theorem forget_eq (hraw : ∀ j, s.slots.slot (b, j) = none) :
    ({ s.slots with slot := fun a => if a.1 = b then none else s.slots.slot a } : Slots (ℕ × ℕ) α) = s.slots := by
  have hslot : (fun a : ℕ × ℕ => if a.1 = b then none else s.slots.slot a) = s.slots.slot := by
    funext a
    by_cases ha : a.1 = b
    · rw [if_pos ha, ← hraw a.2, ← ha]
    · rw [if_neg ha]
  rw [hslot]

/-- `free`, and the variable does not point to the block any more. -/
theorem free_becomes (h : s.Sound) (hv : s.vars x = some v) (hraw : ∀ j, s.cells x j = none)
    (ho : ∀ w, o = some w → w.data = none ∧ w.capacity = 0) :
    Becomes ((s.free x).map fun s => s.setVec x o) (Function.update s.vars x o) s.cells := by
  have hodata : o.bind Vec.data = none := by
    cases o with
    | none => rfl
    | some w => exact (ho w rfl).1
  cases hb : s.dataOf x with
  | none =>
    rw [free, hb]
    exact setVec_becomes h (hodata.trans hb.symm) fun w hw => Or.inl (ho w hw)
  | some b =>
    have hsize : s.size b = some v.capacity := (h.backed x v b hv (by rw [← dataOf_eq hv, hb])).2
    have hslot : ∀ j, s.slots.slot (b, j) = none := fun j => by
      rw [← Option.map_eq_none_iff, ← cells_eq hb, hraw j]
    simp only [free, hb, hsize, Option.map_some, forget_eq hslot]
    refine Rebinds.becomes ⟨rfl, h.accounted, fun c hc => ?_, fun c j hc => ?_, fun w hw _ => (ho w hw).2,
      fun w c hw hc => ?_, fun c hc => ?_, fun y c hy hc => ⟨?_, fun _ => rfl⟩, fun j => ?_⟩ h
    · by_cases hcb : c = b
      · rw [hcb]
        exact Function.update_self ..
      · exact (Function.update_of_ne hcb _ _).trans (h.fresh c hc)
    · by_cases hcb : c = b
      · rw [hcb]
        exact hslot j
      · exact h.raw c j ((Function.update_of_ne hcb _ _).symm.trans hc)
    · exact absurd ((ho w hw).1.symm.trans hc) (by simp)
    · have hcb : c ≠ b := fun heq => hc (by rw [heq]; exact Function.update_self ..)
      obtain ⟨y, hy⟩ := h.owned c fun hnone => hc ((Function.update_of_ne hcb _ _).trans hnone)
      refine Or.inr ⟨y, fun heq => hcb ?_, hy⟩
      rw [heq, hb, Option.some.injEq] at hy
      exact hy.symm
    · exact Function.update_of_ne (fun heq : c = b => hy (h.apart y x b (heq ▸ hc) hb)) _ _
    · rw [hraw j, cells, dataOf_update (s := s) (o := o) rfl, Function.update_self, hodata]
      rfl

omit [DecidableEq ι] in
/-- Variables are swapped. -/
theorem permute_becomes (h : s.Sound) (σ : Equiv.Perm ι) :
    Becomes (some { s with vars := s.vars ∘ σ }) (s.vars ∘ σ) (s.cells ∘ σ) := by
  refine ⟨_, rfl, ⟨h.accounted, h.fresh, h.raw, fun y => h.unbacked (σ y), fun y => h.backed (σ y),
    fun y z c hy hz => σ.injective (h.apart (σ y) (σ z) c hy hz), fun c hc => ?_⟩, rfl, rfl⟩
  obtain ⟨y, hy⟩ := h.owned c hc
  exact ⟨σ.symm y, (congrArg s.dataOf (σ.apply_symm_apply y)).trans hy⟩

/-- `reserve` keeps the elements, and makes room for them. -/
theorem reserve_becomes (h : s.Sound) (hv : s.vars x = some v) (n : ℕ) :
    ∃ w, w.count = v.count ∧ v.capacity ≤ w.capacity ∧ max n 8 ≤ w.capacity ∧
      Becomes (s.reserve x n) (Function.update s.vars x (some w)) s.cells := by
  simp only [reserve, hv, Option.bind_eq_bind, Option.bind_some]
  by_cases hzero : v.capacity = 0
  · have hdata : v.data = none := by
      cases hdata : v.data with
      | none => rfl
      | some b => exact absurd (h.backed x v b hv hdata).1 (by omega)
    rw [if_pos ⟨hzero, by omega⟩]
    exact ⟨{ v with data := some s.next, capacity := max n 8 * 2 }, rfl, by simp only; omega,
      by simp only; omega, alloc_becomes h hv hdata (by omega)⟩
  · rw [if_neg fun hand => hzero hand.1]
    by_cases hlt : v.capacity < max n 8
    · rw [if_pos hlt]
      exact ⟨{ v with data := some s.next, capacity := max n 8 * 2 }, rfl, by simp only; omega,
        by simp only; omega, realloc_becomes h hv (by omega)⟩
    · rw [if_neg hlt]
      refine ⟨v, rfl, Nat.le_refl _, Nat.le_of_not_lt hlt, s, rfl, h, ?_, rfl⟩
      rw [← hv, Function.update_eq_self]

end Blocks

end State
end VecHeap
end WingOS
