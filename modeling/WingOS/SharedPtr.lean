/-
# `SharedPtr`

The pointers of `libcore/shared.hpp` to counted control blocks. A variable holds
a pointer while it is in `live`; the blocks are in a heap, and a step that
follows a pointer to a deleted block does not get through. For each block,
`made` and `deleted` say how often `new` gave it and `delete` took it, as an
address may be used again. There are fewer than 2^64 pointers, so that a count
is a number.

After every run the count of a block is the number of pointers to it, no pointer
refers to a deleted block, and every step deletes the blocks whose last pointer
it drops, and no others (`counts_exact`).

Key definitions: `State`, `step`, `Allowed`, `pointers`, `Exact`.
Key theorems: `dropBlock_books`, `retain_books`, `step_exact`, `counts_exact`.
-/
import WingOS.Lib.Run
import WingOS.Lib.Sums

namespace WingOS
namespace SharedPtr

open Lib (run Meets run_total_of_meets sum_update_add)

structure ControlBlock (T : Type*) where
  refCount : ℕ
  data : T
  deriving DecidableEq

/-- `ptr x` is the `control_block` of the pointer in `x`, missing if it is null. -/
structure State (Var Block T : Type*) where
  live : Finset Var
  ptr : Var → Option Block
  heap : Block → Option (ControlBlock T)
  made : Block → ℕ
  deleted : Block → ℕ

inductive Op (Var Block T : Type*) where
  | construct (x : Var)
  | make (x : Var) (b : Block) (data : T)
  | copyConstruct (x y : Var)
  | moveConstruct (x y : Var)
  | copyAssign (x y : Var)
  | moveAssign (x y : Var)
  | staticPointerCast (x y : Var)
  | destruct (x : Var)

variable {Var Block T : Type*} [DecidableEq Var] [DecidableEq Block]

def State.setPtr (s : State Var Block T) (x : Var) (o : Option Block) : State Var Block T :=
  { s with ptr := Function.update s.ptr x o }

def State.setBlock (s : State Var Block T) (b : Block) (c : Option (ControlBlock T)) : State Var Block T :=
  { s with heap := Function.update s.heap b c }

/-- A variable that holds a pointer from now on. -/
def State.born (s : State Var Block T) (x : Var) (o : Option Block) : State Var Block T :=
  { s.setPtr x o with live := insert x s.live }

/-- `if (control_block) control_block->ref_count++`. -/
def retain (s : State Var Block T) : Option Block → Option (State Var Block T)
  | none => some s
  | some b => (s.heap b).map fun c => s.setBlock b (some { c with refCount := c.refCount + 1 })

/-- `if (control_block && --ref_count == 0) delete control_block`. A count of 0
wraps around. -/
def dropBlock (s : State Var Block T) : Option Block → Option (State Var Block T)
  | none => some s
  | some b =>
    (s.heap b).map fun c =>
      let count := if c.refCount = 0 then 2 ^ 64 - 1 else c.refCount - 1
      if count = 0 then { s.setBlock b none with deleted := Function.update s.deleted b (s.deleted b + 1) }
      else s.setBlock b (some { c with refCount := count })

/-- One operation; the assignments do nothing between pointers that share a
block. -/
def step (s : State Var Block T) : Op Var Block T → Option (State Var Block T)
  | .construct x => some (s.born x none)
  | .make x b data =>
    some ({ s.setBlock b (some ⟨1, data⟩) with made := Function.update s.made b (s.made b + 1) }.born x (some b))
  | .copyConstruct x y => retain (s.born x (s.ptr y)) (s.ptr y)
  | .moveConstruct x y => some ((s.born x (s.ptr y)).setPtr y none)
  | .copyAssign x y =>
    if s.ptr x ≠ s.ptr y then
      (dropBlock s (s.ptr x)).bind fun s => retain (s.setPtr x (s.ptr y)) (s.ptr y)
    else some s
  | .moveAssign x y =>
    if s.ptr x ≠ s.ptr y then
      (dropBlock s (s.ptr x)).map fun s => (s.setPtr x (s.ptr y)).setPtr y none
    else some s
  | .staticPointerCast x y => retain (s.born x (s.ptr y)) (s.ptr y)
  | .destruct x =>
    (dropBlock s (s.ptr x)).map fun s => { s.setPtr x none with live := s.live.erase x }

/-- A pointer is constructed in a variable that holds none, and used while it is
there; `new` gives a block that is not in use. -/
def Allowed (s : State Var Block T) : Op Var Block T → Prop
  | .construct x => x ∉ s.live
  | .make x b _ => x ∉ s.live ∧ s.heap b = none
  | .copyConstruct x y | .moveConstruct x y | .staticPointerCast x y => x ∉ s.live ∧ y ∈ s.live
  | .copyAssign x y | .moveAssign x y => x ∈ s.live ∧ y ∈ s.live
  | .destruct x => x ∈ s.live

/-- How many pointers there are to a block. -/
def pointers (s : State Var Block T) (b : Block) : ℕ := ∑ x ∈ s.live, if s.ptr x = some b then 1 else 0

/-- A block with `n` pointers to it. -/
def Good (c : Option (ControlBlock T)) (n made deleted : ℕ) : Prop :=
  match c with
  | none => n = 0 ∧ made = deleted
  | some c => c.refCount = n ∧ 0 < n ∧ made = deleted + 1

/-- The books are right if there are `n b` pointers to each block `b`. -/
def Books (s : State Var Block T) (n : Block → ℕ) : Prop :=
  ∀ b, Good (s.heap b) (n b) (s.made b) (s.deleted b)

/-- **Shared ownership is exact**: the count of every block that is there is the
number of pointers to it, and there are some; there is no pointer to a block that
is not there; and every block that was made, and is not there, was deleted once. -/
def Exact (s : State Var Block T) : Prop := Books s (pointers s)

/-! ### The counts -/

/-- One for the block, nothing for the others and for null. -/
def one (o : Option Block) (b : Block) : ℕ := if o = some b then 1 else 0

section Books

variable {s s' : State Var Block T} {n : Block → ℕ} {x y : Var} {b : Block} {o : Option Block}

omit [DecidableEq Var] in
theorem retain_books (h : Books s n) (ho : ∀ b, o = some b → 0 < n b) :
    ∃ s', retain s o = some s' ∧ s'.live = s.live ∧ s'.ptr = s.ptr ∧ s'.deleted = s.deleted ∧
      Books s' fun b => n b + one o b := by
  cases o with
  | none => exact ⟨s, rfl, rfl, rfl, rfl, fun b => by simpa [one] using h b⟩
  | some a =>
    have ha := h a
    have hpos := ho a rfl
    cases hc : s.heap a with
    | none =>
      rw [hc] at ha
      exact absurd ha.1 (Nat.pos_iff_ne_zero.mp hpos)
    | some c =>
      rw [hc] at ha
      refine ⟨s.setBlock a (some { c with refCount := c.refCount + 1 }), ?_, rfl, rfl, rfl, fun b => ?_⟩
      · rw [retain, hc]
        rfl
      · by_cases hb : b = a
        · subst hb
          have hone : one (some b) b = 1 := if_pos rfl
          simp only [State.setBlock, Function.update_self, hone]
          exact ⟨by rw [ha.1], Nat.succ_pos _, ha.2.2⟩
        · have hone : one (some a) b = 0 := if_neg (by simpa using Ne.symm hb)
          simp only [State.setBlock, Function.update_of_ne hb, hone]
          exact h b

omit [DecidableEq Var] in
/-- A pointer is given up: the block goes with the last one. -/
theorem dropBlock_books (h : Books s n) (ho : ∀ b, o = some b → 0 < n b) :
    ∃ s', dropBlock s o = some s' ∧ s'.live = s.live ∧ s'.ptr = s.ptr ∧
      (∀ b, s'.deleted b = s.deleted b + if o = some b ∧ n b = 1 then 1 else 0) ∧
      Books s' fun b => n b - one o b := by
  cases o with
  | none => exact ⟨s, rfl, rfl, rfl, fun b => by simp, fun b => by simpa [one] using h b⟩
  | some a =>
    have ha := h a
    have hpos := ho a rfl
    cases hc : s.heap a with
    | none =>
      rw [hc] at ha
      exact absurd ha.1 (Nat.pos_iff_ne_zero.mp hpos)
    | some c =>
      rw [hc] at ha
      obtain ⟨hcount, -, hmade⟩ := ha
      have hwrap : (if c.refCount = 0 then 2 ^ 64 - 1 else c.refCount - 1) = n a - 1 := by
        rw [hcount, if_neg (by omega)]
      have hself : one (some a) a = 1 := if_pos rfl
      have hother : ∀ b, b ≠ a → one (some a) b = 0 := fun b hb => if_neg (by simpa using Ne.symm hb)
      simp only [dropBlock, hc, Option.map_some, hwrap]
      by_cases hlast : n a - 1 = 0
      · rw [if_pos hlast]
        refine ⟨_, rfl, rfl, rfl, fun b => ?_, fun b => ?_⟩
        · by_cases hb : b = a
          · subst hb
            simp only [Function.update_self]
            rw [if_pos ⟨trivial, by omega⟩]
          · simp only [Function.update_of_ne hb]
            rw [if_neg fun heq => hb (Option.some.inj heq.1).symm, Nat.add_zero]
        · by_cases hb : b = a
          · subst hb
            simp only [State.setBlock, Function.update_self, hself]
            exact ⟨hlast, hmade⟩
          · simp only [State.setBlock, Function.update_of_ne hb, hother b hb]
            exact h b
      · rw [if_neg hlast]
        refine ⟨_, rfl, rfl, rfl, fun b => ?_, fun b => ?_⟩
        · rw [if_neg fun heq => hlast (by rw [Option.some.inj heq.1, heq.2])]
          rfl
        · by_cases hb : b = a
          · subst hb
            simp only [State.setBlock, Function.update_self, hself]
            exact ⟨rfl, by omega, hmade⟩
          · simp only [State.setBlock, Function.update_of_ne hb, hother b hb]
            exact h b

theorem pointers_setPtr (hx : x ∈ s.live) (o : Option Block) (b : Block) :
    pointers (s.setPtr x o) b + one (s.ptr x) b = pointers s b + one o b :=
  sum_update_add s.live s.ptr (fun o => if o = some b then 1 else 0) hx o

theorem pointers_born (hx : x ∉ s.live) (o : Option Block) (b : Block) :
    pointers (s.born x o) b = pointers s b + one o b := by
  have hrest : ∑ y ∈ s.live, (if Function.update s.ptr x o y = some b then 1 else 0) = pointers s b :=
    Finset.sum_congr rfl fun y hy => by rw [Function.update_of_ne (ne_of_mem_of_not_mem hy hx)]
  show ∑ y ∈ insert x s.live, (if Function.update s.ptr x o y = some b then 1 else 0) = _
  rw [Finset.sum_insert hx, hrest, Function.update_self, Nat.add_comm]
  rfl

theorem pointers_destruct (hx : x ∈ s.live) (b : Block) :
    pointers { s.setPtr x none with live := s.live.erase x } b + one (s.ptr x) b = pointers s b := by
  have hrest : pointers { s.setPtr x none with live := s.live.erase x } b =
      ∑ y ∈ s.live.erase x, if s.ptr y = some b then 1 else 0 :=
    Finset.sum_congr rfl fun y hy => by
      simp only [State.setPtr, Function.update_of_ne (Finset.ne_of_mem_erase hy)]
  rw [hrest, Nat.add_comm]
  exact Finset.add_sum_erase s.live (fun y => if s.ptr y = some b then 1 else 0) hx

omit [DecidableEq Var] in
theorem pointers_congr (hlive : s'.live = s.live) (hptr : s'.ptr = s.ptr) : pointers s' = pointers s := by
  funext b
  unfold pointers
  rw [hlive, hptr]

omit [DecidableEq Var] in
/-- What a pointer points to has a pointer. -/
theorem pointers_pos (hx : x ∈ s.live) : ∀ b, s.ptr x = some b → 0 < pointers s b := by
  intro b hb
  have hle := Finset.single_le_sum (f := fun y => if s.ptr y = some b then 1 else 0)
    (fun _ _ => Nat.zero_le _) hx
  simp only [hb, if_true] at hle
  exact hle

omit [DecidableEq Var] [DecidableEq Block] in
theorem Books.congr {m : Block → ℕ} (h : Books s n) (hn : ∀ b, m b = n b) : Books s m := fun b => by
  rw [hn b]
  exact h b

/-! ### One step -/

/-- A step deletes the blocks whose last pointer it drops. -/
def DeletesLast (s s' : State Var Block T) : Prop :=
  ∀ b, s'.deleted b = s.deleted b + if 0 < pointers s b ∧ pointers s' b = 0 then 1 else 0

/-- The step gets through, is exact, and deletes what it should. -/
def Keeps (s : State Var Block T) (o : Op Var Block T) : Prop :=
  ∃ s', step s o = some s' ∧ Exact s' ∧ DeletesLast s s'

omit [DecidableEq Var] in
/-- No block loses its last pointer, and none is deleted. -/
theorem deletesLast_of_le (hd : s'.deleted = s.deleted) (h : ∀ b, pointers s b ≤ pointers s' b) :
    DeletesLast s s' := by
  intro b
  have hle := h b
  rw [hd, if_neg (by omega), Nat.add_zero]

/-- A new pointer to what `y` points to. -/
theorem keeps_copy (h : Exact s) (hx : x ∉ s.live) (hy : y ∈ s.live) :
    ∃ s', retain (s.born x (s.ptr y)) (s.ptr y) = some s' ∧ Exact s' ∧ DeletesLast s s' := by
  have hborn : Books (s.born x (s.ptr y)) (pointers s) := h
  obtain ⟨s', hs', hlive, hptr, hdel, hbooks⟩ := retain_books hborn (pointers_pos hy)
  have hpointers : ∀ b, pointers s' b = pointers s b + one (s.ptr y) b := fun b => by
    rw [pointers_congr hlive hptr, pointers_born hx]
  exact ⟨s', hs', hbooks.congr hpointers, deletesLast_of_le hdel fun b => by rw [hpointers b]; omega⟩

omit [DecidableEq Var] in
/-- The pointer in `x` is dropped. -/
theorem drop_ptr (h : Exact s) (hx : x ∈ s.live) :
    ∃ s', dropBlock s (s.ptr x) = some s' ∧ s'.live = s.live ∧ s'.ptr = s.ptr ∧
      (∀ b, s'.deleted b = s.deleted b + if s.ptr x = some b ∧ pointers s b = 1 then 1 else 0) ∧
      Books s' fun b => pointers s b - one (s.ptr x) b :=
  dropBlock_books h (pointers_pos hx)

omit [DecidableEq Var] in
theorem one_le_pointers (hx : x ∈ s.live) (b : Block) : one (s.ptr x) b ≤ pointers s b := by
  by_cases hb : s.ptr x = some b
  · have hpos := pointers_pos hx b hb
    rw [one, if_pos hb]
    exact hpos
  · rw [one, if_neg hb]
    exact Nat.zero_le _

omit [DecidableEq Var] in
/-- What a drop deletes, where the other pointers of the block stay. -/
theorem deletesLast_of_drop (hx : x ∈ s.live)
    (hd : ∀ b, s'.deleted b = s.deleted b + if s.ptr x = some b ∧ pointers s b = 1 then 1 else 0)
    (hself : ∀ b, s.ptr x = some b → pointers s' b = pointers s b - 1)
    (hother : ∀ b, s.ptr x ≠ some b → pointers s b ≤ pointers s' b) : DeletesLast s s' := by
  intro b
  rw [hd b]
  by_cases hb : s.ptr x = some b
  · have hpos := pointers_pos hx b hb
    rw [hself b hb]
    exact congrArg _ (if_congr (by constructor <;> intro h <;> [omega; exact ⟨hb, by omega⟩]) rfl rfl)
  · have hle := hother b hb
    rw [if_neg fun h => hb h.1, if_neg (by omega)]

theorem keeps_make (h : Exact s) (hx : x ∉ s.live) (hb : s.heap b = none) (data : T) :
    Keeps s (.make x b data) := by
  have hborn : ∀ a, pointers ({ s.setBlock b (some ⟨1, data⟩) with
      made := Function.update s.made b (s.made b + 1) }.born x (some b)) a =
      pointers s a + one (some b) a := fun a => pointers_born hx (some b) a
  refine ⟨_, rfl, fun a => ?_, deletesLast_of_le rfl fun a => by rw [hborn a]; omega⟩
  rw [hborn a]
  have ha := h a
  by_cases hab : a = b
  · subst hab
    rw [hb] at ha
    obtain ⟨hzero, hmade⟩ := ha
    have hone : one (some a) a = 1 := if_pos rfl
    simp only [State.born, State.setPtr, State.setBlock, Function.update_self, hone, hzero]
    exact ⟨rfl, Nat.one_pos, by rw [hmade]⟩
  · have hone : one (some b) a = 0 := if_neg (by simpa using Ne.symm hab)
    simp only [State.born, State.setPtr, State.setBlock, Function.update_of_ne hab, hone]
    exact ha

theorem keeps_moveConstruct (h : Exact s) (hx : x ∉ s.live) (hy : y ∈ s.live) :
    Keeps s (.moveConstruct x y) := by
  have hxy : y ≠ x := ne_of_mem_of_not_mem hy hx
  have hpointers : ∀ b, pointers ((s.born x (s.ptr y)).setPtr y none) b = pointers s b := fun b => by
    have hmoved := pointers_setPtr (s := s.born x (s.ptr y)) (Finset.mem_insert_of_mem hy) none b
    rw [pointers_born hx, show (s.born x (s.ptr y)).ptr y = s.ptr y from Function.update_of_ne hxy _ _] at hmoved
    exact Nat.add_right_cancel hmoved
  have hbooks : Books ((s.born x (s.ptr y)).setPtr y none) (pointers s) := h
  exact ⟨_, rfl, hbooks.congr hpointers, deletesLast_of_le rfl fun b => (hpointers b).ge⟩

theorem keeps_copyAssign (h : Exact s) (hx : x ∈ s.live) (hy : y ∈ s.live) : Keeps s (.copyAssign x y) := by
  by_cases hxy : s.ptr x = s.ptr y
  · exact ⟨s, if_neg (not_not.mpr hxy), h, deletesLast_of_le rfl fun _ => Nat.le_refl _⟩
  · obtain ⟨s1, hdrop, hlive, hptr, hdel, hbooks⟩ := drop_ptr h hx
    have hpos : ∀ b, s.ptr y = some b → 0 < pointers s b - one (s.ptr x) b := fun b hb => by
      have hone : one (s.ptr x) b = 0 := if_neg fun heq => hxy (heq.trans hb.symm)
      rw [hone]
      exact pointers_pos hy b hb
    have hset : Books (s1.setPtr x (s.ptr y)) fun b => pointers s b - one (s.ptr x) b := hbooks
    obtain ⟨s2, hretain, hlive2, hptr2, hdel2, hbooks2⟩ := retain_books hset hpos
    have hpointers : ∀ b, pointers s2 b = pointers s b - one (s.ptr x) b + one (s.ptr y) b := fun b => by
      have hassigned := pointers_setPtr (s := s1) (hlive ▸ hx) (s.ptr y) b
      have hle := one_le_pointers hx b
      rw [pointers_congr hlive hptr, hptr] at hassigned
      rw [pointers_congr hlive2 hptr2]
      omega
    refine ⟨s2, ?_, hbooks2.congr hpointers,
      deletesLast_of_drop hx (fun b => by rw [hdel2]; exact hdel b) (fun b hb => ?_) fun b hb => ?_⟩
    · simp only [step, if_pos hxy, hdrop, Option.bind_some, hptr]
      exact hretain
    · have hself : one (s.ptr x) b = 1 := if_pos hb
      have hother : one (s.ptr y) b = 0 := if_neg fun heq => hxy (hb.trans heq.symm)
      rw [hpointers b, hself, hother, Nat.add_zero]
    · have hself : one (s.ptr x) b = 0 := if_neg hb
      rw [hpointers b, hself]
      omega

theorem keeps_moveAssign (h : Exact s) (hx : x ∈ s.live) (hy : y ∈ s.live) : Keeps s (.moveAssign x y) := by
  by_cases hxy : s.ptr x = s.ptr y
  · exact ⟨s, if_neg (not_not.mpr hxy), h, deletesLast_of_le rfl fun _ => Nat.le_refl _⟩
  · have hne : y ≠ x := fun heq => hxy (by rw [heq])
    obtain ⟨s1, hdrop, hlive, hptr, hdel, hbooks⟩ := drop_ptr h hx
    have hset : Books ((s1.setPtr x (s.ptr y)).setPtr y none) fun b => pointers s b - one (s.ptr x) b := hbooks
    have hpointers : ∀ b, pointers ((s1.setPtr x (s.ptr y)).setPtr y none) b =
        pointers s b - one (s.ptr x) b := fun b => by
      have hassigned := pointers_setPtr (s := s1) (hlive ▸ hx) (s.ptr y) b
      have hmoved := pointers_setPtr (s := s1.setPtr x (s.ptr y)) (x := y) (hlive ▸ hy) none b
      have hle := one_le_pointers hx b
      have hkept : (s1.setPtr x (s.ptr y)).ptr y = s.ptr y := by
        rw [← hptr]
        exact Function.update_of_ne hne _ _
      have hnone : one none b = 0 := if_neg (by simp)
      rw [pointers_congr hlive hptr, hptr] at hassigned
      rw [hkept, hnone] at hmoved
      omega
    refine ⟨_, ?_, hset.congr hpointers, deletesLast_of_drop hx hdel (fun b hb => ?_) fun b hb => ?_⟩
    · simp only [step, if_pos hxy, hdrop, Option.map_some, hptr]
    · rw [hpointers b, one, if_pos hb]
    · rw [hpointers b, one, if_neg hb, Nat.sub_zero]

theorem keeps_destruct (h : Exact s) (hx : x ∈ s.live) : Keeps s (.destruct x) := by
  obtain ⟨s1, hdrop, hlive, hptr, hdel, hbooks⟩ := drop_ptr h hx
  have hset : Books { s1.setPtr x none with live := s1.live.erase x }
      fun b => pointers s b - one (s.ptr x) b := hbooks
  have hpointers : ∀ b, pointers { s1.setPtr x none with live := s1.live.erase x } b =
      pointers s b - one (s.ptr x) b := fun b => by
    have hgone := pointers_destruct (s := s1) (hlive ▸ hx) b
    rw [pointers_congr hlive hptr, hptr] at hgone
    omega
  refine ⟨_, ?_, hset.congr hpointers, deletesLast_of_drop hx hdel (fun b hb => ?_) fun b hb => ?_⟩
  · simp only [step, hdrop, Option.map_some]
  · rw [hpointers b, one, if_pos hb]
  · rw [hpointers b, one, if_neg hb, Nat.sub_zero]

/-- **Every operation** gets through, is exact, and deletes the blocks whose last
pointer it drops. -/
theorem step_keeps (h : Exact s) {o : Op Var Block T} (ho : Allowed s o) : Keeps s o := by
  cases o with
  | construct x =>
    have hpointers : ∀ b, pointers (s.born x none) b = pointers s b := fun b => by
      rw [pointers_born ho, one, if_neg (by simp), Nat.add_zero]
    have hbooks : Books (s.born x none) (pointers s) := h
    exact ⟨_, rfl, hbooks.congr hpointers, deletesLast_of_le rfl fun b => (hpointers b).ge⟩
  | make x b data => exact keeps_make h ho.1 ho.2 data
  | copyConstruct x y => exact keeps_copy h ho.1 ho.2
  | moveConstruct x y => exact keeps_moveConstruct h ho.1 ho.2
  | copyAssign x y => exact keeps_copyAssign h ho.1 ho.2
  | moveAssign x y => exact keeps_moveAssign h ho.1 ho.2
  | staticPointerCast x y => exact keeps_copy h ho.1 ho.2
  | destruct x => exact keeps_destruct h ho

end Books

/-- No pointers and no blocks. -/
def init : State Var Block T := ⟨∅, fun _ => none, fun _ => none, fun _ => 0, fun _ => 0⟩

omit [DecidableEq Var] in
theorem exact_init : Exact (init : State Var Block T) := fun _ => ⟨rfl, rfl⟩

/-- **Shared ownership is exact** after every run, and in each step that can
follow. -/
theorem counts_exact {ops : List (Op Var Block T)} (hops : Meets step Allowed ops init) :
    ∃ s, run step ops init = some s ∧ Exact s ∧ ∀ o, Allowed s o → Keeps s o := by
  obtain ⟨s, hrun, hexact⟩ := run_total_of_meets (fun s o hs ho => by
    obtain ⟨s', hstep, hs', -⟩ := step_keeps hs ho
    exact ⟨s', hstep, hs'⟩) ops hops exact_init
  exact ⟨s, hrun, hexact, fun o ho => step_keeps hexact ho⟩

instance (s : State Var Block ℕ) : ∀ o, Decidable (Allowed s o)
  | .construct x => inferInstanceAs (Decidable (x ∉ s.live))
  | .make x b _ => inferInstanceAs (Decidable (x ∉ s.live ∧ s.heap b = none))
  | .copyConstruct x y | .moveConstruct x y | .staticPointerCast x y =>
    inferInstanceAs (Decidable (x ∉ s.live ∧ y ∈ s.live))
  | .copyAssign x y | .moveAssign x y => inferInstanceAs (Decidable (x ∈ s.live ∧ y ∈ s.live))
  | .destruct x => inferInstanceAs (Decidable (x ∈ s.live))

/-- Two blocks; the pointers to the first one are overwritten one by one. -/
def overwrite : List (Op ℕ ℕ ℕ) :=
  [.make 0 10 5, .copyConstruct 1 0, .make 2 11 6, .copyAssign 0 2, .moveAssign 1 0, .copyAssign 2 2,
    .staticPointerCast 3 2, .destruct 2]

theorem counts_exact_overwrite : ∃ s, run step overwrite init = some s ∧ Exact s ∧ ∀ o, Allowed s o → Keeps s o :=
  counts_exact (by decide)

end SharedPtr
end WingOS
