/-
# Runs of `Vec`

The operations of `libcore/ds/vec.hpp` over any variables and any element type,
and the lists they stand for. `insert` before the end assigns the last element to
the raw slot after it, and the `+=` that moves frees a block whose objects are
still there. In every run without these the `Vec`s refine the lists, and when all
variables are gone every element was destroyed exactly once (`vec_refines`).

Key definitions: `Op`, `step`, `Lists.step`, `Refines`, `GoodStep`.
Key theorems: `step_refines`, `vec_refines`.
-/
import WingOS.Vec

namespace WingOS
namespace VecHeap

open Lib (Slots run run_range Meets run_refines_of_meets)
open Lib.Slots (Accounted accounted_empty)
open State

variable {ι α : Type} [DecidableEq ι]

inductive Op (ι α : Type) where
  | construct (x : ι)
  | copyConstruct (x other : ι)
  | moveConstruct (x other : ι)
  | copyAssign (x other : ι)
  | moveAssign (x other : ι)
  | addCopy (x other : ι)
  | addMove (x other : ι)
  | softAdd (x rhs : ι)
  | pushElements (x arr : ι)
  | push (x : ι) (value : α)
  | pop (x : ι)
  | popAt (x : ι) (id : ℕ)
  | insert (x : ι) (id : ℕ) (el : α)
  | clear (x : ι)
  | release (x : ι)
  | destruct (x : ι)
  deriving DecidableEq

/-- One operation, and what it returns. -/
def exec (moved : α → α) (s : State ι α) : Op ι α → Option (State ι α × Option α)
  | .construct x => some (s.setVec x (some Vec.empty), none)
  | .copyConstruct x other => (s.copyConstruct x other).map (·, none)
  | .moveConstruct x other => (s.moveConstruct x other).map (·, none)
  | .copyAssign x other => (s.copyAssign x other).map (·, none)
  | .moveAssign x other => (s.moveAssign x other).map (·, none)
  | .addCopy x other => (s.addCopy x other).map (·, none)
  | .addMove x other => (s.addMove moved x other).map (·, none)
  | .softAdd x rhs => (s.softAdd moved x rhs).map (·, none)
  | .pushElements x arr => (s.pushElements moved x arr).map (·, none)
  | .push x value => (s.push x value).map (·, none)
  | .pop x => (s.pop moved x).map fun r => (r.1, some r.2)
  | .popAt x id => (s.popAt moved x id).map fun r => (r.1, some r.2)
  | .insert x id el => (s.insert moved x id el).map (·, none)
  | .clear x => (s.clear x).map (·, none)
  | .release x => (s.release x).map (·, none)
  | .destruct x => (s.destruct x).map (·, none)

/-- One operation; the elements that were popped are kept. -/
def step (moved : α → α) (s : State ι α × List α) (o : Op ι α) : Option (State ι α × List α) :=
  (exec moved s.1 o).map fun r => (r.1, r.2.toList ++ s.2)

/-- No variables, and no memory. -/
def init : State ι α := ⟨fun _ => none, fun _ => none, 0, ⟨fun _ => none, 0, []⟩⟩

/-! ### The lists -/

namespace Lists

/-- The operation on lists, where it has a meaning. -/
def exec (moved : α → α) (t : ι → Option (List α)) : Op ι α → Option ((ι → Option (List α)) × Option α)
  | .construct x => if t x = none then some (Function.update t x (some []), none) else none
  | .copyConstruct x other => do
    let ys ← t other
    if t x = none then some (Function.update t x (some ys), none) else none
  | .moveConstruct x other => do
    let ys ← t other
    if t x = none then some (Function.update (Function.update t x (some ys)) other (some []), none) else none
  | .copyAssign x other => do
    let _ ← t x
    let ys ← t other
    some (Function.update t x (some ys), none)
  | .moveAssign x other => do
    let xs ← t x
    let ys ← t other
    some (Function.update (Function.update t x (some ys)) other (some xs), none)
  | .addCopy x other => do
    let xs ← t x
    let ys ← t other
    if x = other then none else some (Function.update t x (some (xs ++ ys)), none)
  | .addMove x other => do
    let xs ← t x
    let ys ← t other
    if x = other then none
    else some (Function.update (Function.update t x (some (xs ++ ys))) other (some []), none)
  | .softAdd x rhs => do
    let xs ← t x
    let ys ← t rhs
    some (Function.update (Function.update t x (some (xs ++ ys))) rhs (some []), none)
  | .pushElements x arr => do
    let ys ← t arr
    let t := Function.update t arr (some (ys.map moved))
    let xs ← t x
    some (Function.update t x (some (xs ++ ys)), none)
  | .push x value => do
    let xs ← t x
    some (Function.update t x (some (xs ++ [value])), none)
  | .pop x => do
    let xs ← t x
    let value ← xs.getLast?
    some (Function.update t x (some xs.dropLast), some value)
  | .popAt x id => do
    let xs ← t x
    let value ← xs[id]?
    some (Function.update t x (some (xs.eraseIdx id)), some value)
  | .insert x id el => do
    let xs ← t x
    if id ≤ xs.length then some (Function.update t x (some (xs.insertIdx id el)), none) else none
  | .clear x | .release x => do
    let _ ← t x
    some (Function.update t x (some []), none)
  | .destruct x => do
    let _ ← t x
    some (Function.update t x none, none)

def step (moved : α → α) (t : (ι → Option (List α)) × List α) (o : Op ι α) :
    Option ((ι → Option (List α)) × List α) :=
  (exec moved t.1 o).map fun r => (r.1, r.2.toList ++ t.2)

end Lists

/-- The slots of lists. -/
def contents (t : ι → Option (List α)) (x : ι) (i : ℕ) : Option α := (t x).bind (·[i]?)

/-- The counts are the lengths of the lists, and there is room for them. -/
def Fits (vars : ι → Option Vec) (t : ι → Option (List α)) : Prop :=
  ∀ x, (vars x).map Vec.count = (t x).map List.length ∧ ∀ v, vars x = some v → v.count ≤ v.capacity

/-- **The `Vec`s hold the lists**: exactly the slots below the counts hold an
object, the element of the list. -/
structure Refines (s : State ι α) (t : ι → Option (List α)) : Prop where
  sound : s.Sound
  fits : Fits s.vars t
  cells : s.cells = contents t

/-- No insertion before the end, and no `+=` that moves elements. -/
def SoundStep (s : State ι α) : Op ι α → Prop
  | .insert x id _ => ∀ v ∈ s.vars x, v.count ≤ id
  | .addMove _ other => ∀ w ∈ s.vars other, w.count = 0
  | _ => True

/-! ### Slots of lists -/

section Contents

variable {t : ι → Option (List α)} {x y : ι} {xs : List α} {i : ℕ}

theorem contents_update (t : ι → Option (List α)) (x : ι) (o : Option (List α)) :
    contents (Function.update t x o) = Function.update (contents t) x fun i => o.bind (·[i]?) := by
  funext y i
  by_cases hy : y = x
  · simp only [contents, hy, Function.update_self]
  · simp only [contents, Function.update_of_ne hy]

omit [DecidableEq ι] in
theorem contents_eq (ht : t x = some xs) (i : ℕ) : contents t x i = xs[i]? := by
  rw [contents, ht, Option.bind_some]

/-- What one variable holds, slot by slot. -/
theorem setCell_contents {c : ℕ → Option α} {i : ℕ} {o : Option α} (ht : t x = some xs)
    (hc : ∀ j, c j = if j = i then o else xs[j]?) : setCell (contents t) x i o = Function.update (contents t) x c := by
  rw [setCell]
  congr 1
  funext j
  rw [hc j, Function.update_apply, contents_eq ht]

theorem setCell_setCell (c : ι → ℕ → Option α) (x : ι) (i : ℕ) (o o' : Option α) :
    setCell (setCell c x i o) x i o' = setCell c x i o' := by
  rw [setCell, setCell, setCell, Function.update_self, Function.update_idem, Function.update_idem]

/-- An object is constructed after the last one. -/
theorem setCell_append (ht : t x = some xs) (k : α) :
    setCell (contents t) x xs.length (some k) = contents (Function.update t x (some (xs ++ [k]))) := by
  rw [contents_update]
  refine setCell_contents ht fun j => ?_
  rw [Option.bind_some, List.getElem?_append]
  split_ifs with hlt heq hne
  · omega
  · rfl
  · rw [hne, Nat.sub_self, List.getElem?_cons_zero]
  · rw [List.getElem?_eq_none (by simp only [List.length_singleton]; omega), List.getElem?_eq_none (by omega)]

theorem setCell_set (ht : t x = some xs) (hi : i < xs.length) (k : α) :
    setCell (contents t) x i (some k) = contents (Function.update t x (some (xs.set i k))) := by
  rw [contents_update]
  refine setCell_contents ht fun j => ?_
  rw [Option.bind_some, List.getElem?_set]
  by_cases hj : j = i
  · rw [if_pos hj.symm, if_pos hj, if_pos (hj ▸ hi)]
  · rw [if_neg (Ne.symm hj), if_neg hj]

/-- The last object is destroyed. -/
theorem setCell_dropLast (ht : t x = some xs) :
    setCell (contents t) x (xs.length - 1) none = contents (Function.update t x (some xs.dropLast)) := by
  rw [contents_update]
  refine setCell_contents ht fun j => ?_
  rw [Option.bind_some, List.getElem?_dropLast]
  split_ifs with hlt heq hne
  · omega
  · rfl
  · rfl
  · exact (List.getElem?_eq_none (by omega)).symm

end Contents

/-! ### One step after the other -/

section Steps

variable {moved : α → α} {s : State ι α} {t : ι → Option (List α)} {x y : ι} {xs ys : List α} {v : Vec}
  {vars vars' : ι → Option Vec} {c c' : ι → ℕ → Option α}

omit [DecidableEq ι] in
theorem State.Becomes.bind {r : Option (State ι α)} {f : State ι α → Option (State ι α)} (hr : Becomes r vars c)
    (hf : ∀ s, s.Sound → s.vars = vars → s.cells = c → Becomes (f s) vars' c') : Becomes (r.bind f) vars' c' := by
  obtain ⟨s, rfl, hs, hvars, hcells⟩ := hr
  exact hf s hs hvars hcells

omit [DecidableEq ι] in
/-- A loop that changes elements only, where `c i` are the elements before the
pass `i`. -/
theorem run_becomes {f : State ι α → ℕ → Option (State ι α)} {c : ℕ → ι → ℕ → Option α} {i n : ℕ}
    (hstep : ∀ j s, i ≤ j → j < i + n → s.Sound → s.vars = vars → s.cells = c j →
      Becomes (f s j) vars (c (j + 1)))
    (hs : s.Sound) (hvars : s.vars = vars) (hcells : s.cells = c i) :
    Becomes (run f (List.range' i n) s) vars (c (i + n)) := by
  let P (j : ℕ) (s : State ι α) : Prop := s.Sound ∧ s.vars = vars ∧ s.cells = c j
  have hpass : ∀ j s, i ≤ j → j < i + n → P j s → ∃ s', f s j = some s' ∧ P (j + 1) s' :=
    fun j s hij hj hP => hstep j s hij hj hP.1 hP.2.1 hP.2.2
  exact run_range n i hpass ⟨hs, hvars, hcells⟩

omit [DecidableEq ι] in
theorem Refines.of_becomes {r : Option (State ι α)} (hr : Becomes r vars (contents t)) (hfits : Fits vars t) :
    ∃ s', r = some s' ∧ Refines s' t := by
  obtain ⟨s', hs', hsound, rfl, hcells⟩ := hr
  exact ⟨s', hs', hsound, hfits, hcells⟩

omit [DecidableEq ι] in
/-- The variable of a list. -/
theorem Fits.get (h : Fits vars t) (ht : t x = some xs) :
    ∃ v, vars x = some v ∧ v.count = xs.length ∧ v.count ≤ v.capacity := by
  have hcount := (h x).1
  rw [ht] at hcount
  obtain ⟨v, hv, hlen⟩ := Option.map_eq_some_iff.mp hcount
  exact ⟨v, hv, hlen, (h x).2 v hv⟩

omit [DecidableEq ι] in
theorem Fits.gone (h : Fits vars t) (ht : t x = none) : vars x = none := by
  have hcount := (h x).1
  rw [ht] at hcount
  exact Option.map_eq_none_iff.mp hcount

theorem Fits.update (h : Fits vars t) (hcount : v.count = xs.length) (hbound : v.count ≤ v.capacity) :
    Fits (Function.update vars x (some v)) (Function.update t x (some xs)) := by
  intro y
  by_cases hy : y = x
  · rw [hy, Function.update_self, Function.update_self]
    exact ⟨congrArg some hcount, fun w hw => Option.some.inj hw ▸ hbound⟩
  · rw [Function.update_of_ne hy, Function.update_of_ne hy]
    exact h y

/-- The same number of elements. -/
theorem Fits.replace (h : Fits vars t) (ht : t x = some xs) (hlen : ys.length = xs.length) :
    Fits vars (Function.update t x (some ys)) := by
  obtain ⟨v, hv, hcount, hbound⟩ := h.get ht
  have hsame := h.update (x := x) (hcount.trans hlen.symm) hbound
  rwa [← hv, Function.update_eq_self] at hsame

/-- The count is set at the end of an operation. -/
theorem setCount_last (hs : s.Sound) {w : Vec} (hvars : s.vars = Function.update vars x (some w)) (n : ℕ) :
    Becomes (some (s.setCount x n)) (Function.update vars x (some { w with count := n })) s.cells := by
  have hbecomes := setCount_becomes hs (v := w) (x := x) (by rw [hvars, Function.update_self]) n
  rwa [hvars, Function.update_idem] at hbecomes

/-- The elements that the destructors of `clear` leave after the pass `i`. -/
def cleared (t : ι → Option (List α)) (x : ι) (xs : List α) (i : ℕ) : ι → ℕ → Option α :=
  Function.update (contents t) x fun j => if j < i then none else xs[j]?

theorem cleared_zero (ht : t x = some xs) : cleared t x xs 0 = contents t := by
  have hsame : (fun j => if j < 0 then none else xs[j]?) = contents t x := by
    funext j
    rw [if_neg (Nat.not_lt_zero j), contents_eq ht]
  rw [cleared, hsame, Function.update_eq_self]

theorem setCell_cleared (t : ι → Option (List α)) (x : ι) (xs : List α) (i : ℕ) :
    setCell (cleared t x xs i) x i none = cleared t x xs (i + 1) := by
  rw [setCell, cleared, cleared, Function.update_self, Function.update_idem]
  congr 1
  funext j
  rw [Function.update_apply]
  split_ifs with heq hlt hlt' hlt'
  · rfl
  · omega
  · rfl
  · omega
  · omega
  · rfl

theorem cleared_all (t : ι → Option (List α)) (x : ι) (xs : List α) :
    cleared t x xs xs.length = contents (Function.update t x (some [])) := by
  rw [cleared, contents_update]
  congr 1
  funext j
  rw [Option.bind_some, List.getElem?_nil]
  split_ifs with hlt
  · rfl
  · exact List.getElem?_eq_none (by omega)

theorem clear_becomes (h : Refines s t) (ht : t x = some xs) (hv : s.vars x = some v) :
    Becomes (s.clear x) (Function.update s.vars x (some { v with count := 0 }))
      (contents (Function.update t x (some []))) := by
  obtain ⟨v', hv', hcount, hbound⟩ := h.fits.get ht
  obtain rfl := Option.some.inj (hv.symm.trans hv')
  have hloop : Becomes (run (fun s i => s.destroy x i) (List.range' 0 v.count) s) s.vars
      (cleared t x xs (0 + v.count)) := by
    refine run_becomes (fun i s1 _ hi hs1 hvars1 hcells1 => ?_) h.sound rfl
      (h.cells.trans (cleared_zero ht).symm)
    have hi' : i < xs.length := by omega
    have hk : s1.cells x i = some xs[i] := by
      rw [hcells1, cleared, Function.update_self, if_neg (Nat.lt_irrefl i), List.getElem?_eq_getElem hi']
    have hdestroy := destroy_becomes hs1 (by rw [hvars1, hv]) (by omega) hk
    rwa [hvars1, hcells1, setCell_cleared] at hdestroy
  rw [Nat.zero_add, hcount, cleared_all] at hloop
  simp only [State.clear, hv, Option.bind_eq_bind, Option.bind_some]
  rw [hcount]
  refine hloop.bind fun s1 hs1 hvars1 hcells1 => ?_
  rw [← hcells1, ← hvars1]
  exact setCount_becomes hs1 (by rw [hvars1, hv]) 0

theorem clear_refines (h : Refines s t) (ht : t x = some xs) :
    ∃ s', s.clear x = some s' ∧ Refines s' (Function.update t x (some [])) := by
  obtain ⟨v, hv, -, -⟩ := h.fits.get ht
  exact Refines.of_becomes (clear_becomes h ht hv) (h.fits.update rfl (Nat.zero_le _))

omit [DecidableEq ι] in
theorem contents_nil (ht : t x = some []) (i : ℕ) : contents t x i = none := by
  rw [contents_eq ht, List.getElem?_nil]

/-- Nothing is left of a `Vec` that is released. -/
theorem release_becomes (h : Refines s t) (ht : t x = some xs) :
    Becomes (s.release x) (Function.update s.vars x (some Vec.empty))
      (contents (Function.update t x (some []))) := by
  obtain ⟨v, hv, hcount, hbound⟩ := h.fits.get ht
  simp only [State.release, hv, Option.bind_eq_bind, Option.bind_some]
  by_cases hdata : v.data ≠ none ∧ v.capacity ≠ 0
  · rw [if_pos hdata]
    refine (clear_becomes h ht hv).bind fun s1 hs1 hvars1 hcells1 => ?_
    have hv1 : s1.vars x = some { v with count := 0 } := by rw [hvars1, Function.update_self]
    have hraw : ∀ i, s1.cells x i = none := fun i => by
      rw [hcells1]
      exact contents_nil (Function.update_self ..) i
    have hfree := free_becomes hs1 hv1 hraw (o := some Vec.empty) fun w hw => by
      obtain rfl := Option.some.inj hw
      exact ⟨rfl, rfl⟩
    rw [hvars1, Function.update_idem, Option.map_eq_bind] at hfree
    rw [hv1, Option.bind_some, ← hcells1]
    exact hfree
  · rw [if_neg hdata]
    have hnone : v.data = none := by
      cases hd : v.data with
      | none => rfl
      | some b =>
        have hpos := (h.sound.backed x v b hv hd).1
        exact absurd ⟨by rw [hd]; exact Option.some_ne_none b, by omega⟩ hdata
    have hzero : v.capacity = 0 := h.sound.unbacked x v hv hnone
    have hnil : xs = [] := List.eq_nil_of_length_eq_zero (by omega)
    have hempty : v = Vec.empty := by
      rw [show v = ⟨v.data, v.count, v.capacity⟩ from rfl, hnone, hzero, show v.count = 0 by omega]
      rfl
    rw [← hempty, ← hv, Function.update_eq_self, ← hnil, ← ht, Function.update_eq_self]
    exact ⟨s, rfl, h.sound, rfl, h.cells⟩

theorem release_refines (h : Refines s t) (ht : t x = some xs) :
    ∃ s', s.release x = some s' ∧ Refines s' (Function.update t x (some [])) :=
  Refines.of_becomes (release_becomes h ht) (h.fits.update rfl (Nat.le_refl _))

/-- A variable that is gone, or empty, has no elements. -/
theorem contents_update_nil (t : ι → Option (List α)) (x : ι) :
    contents (Function.update t x (some [])) = contents (Function.update t x none) := by
  rw [contents_update, contents_update]
  rfl

theorem Fits.remove (h : Fits vars t) (x : ι) :
    Fits (Function.update vars x none) (Function.update t x none) := by
  intro y
  by_cases hy : y = x
  · rw [hy, Function.update_self, Function.update_self]
    exact ⟨rfl, fun w hw => absurd hw (by simp)⟩
  · rw [Function.update_of_ne hy, Function.update_of_ne hy]
    exact h y

theorem destruct_refines (h : Refines s t) (ht : t x = some xs) :
    ∃ s', s.destruct x = some s' ∧ Refines s' (Function.update t x none) := by
  refine Refines.of_becomes ?_ (h.fits.remove x)
  simp only [State.destruct, Option.bind_eq_bind]
  refine (release_becomes h ht).bind fun s1 hs1 hvars1 hcells1 => ?_
  have hv1 : s1.vars x = some Vec.empty := by rw [hvars1, Function.update_self]
  have hgone := setVec_becomes hs1 (o := none) (by rw [dataOf_eq hv1]; rfl) fun w hw => absurd hw (by simp)
  rwa [hvars1, Function.update_idem, hcells1, contents_update_nil] at hgone

/-- An empty variable. -/
theorem setVec_empty (h : Refines s t) (ht : t x = none) :
    Becomes (some (s.setVec x (some Vec.empty))) (Function.update s.vars x (some Vec.empty))
      (contents (Function.update t x (some []))) := by
  have hnew := setVec_becomes h.sound (o := some Vec.empty) (x := x) (by rw [dataOf, h.fits.gone ht]; rfl)
    fun w hw => by
      obtain rfl := Option.some.inj hw
      exact Or.inl ⟨rfl, rfl⟩
  rwa [contents_update_nil, ← ht, Function.update_eq_self, ← h.cells]

theorem construct_refines (h : Refines s t) (ht : t x = none) :
    Refines (s.setVec x (some Vec.empty)) (Function.update t x (some [])) := by
  obtain ⟨s', hs', hrefines⟩ := Refines.of_becomes (setVec_empty h ht) (h.fits.update rfl (Nat.le_refl _))
  exact Option.some.inj hs' ▸ hrefines

theorem pop_refines (moved : α → α) (h : Refines s t) (ht : t x = some xs) {value : α} (hlast : xs.getLast? = some value) :
    ∃ s', s.pop moved x = some (s', value) ∧ Refines s' (Function.update t x (some xs.dropLast)) := by
  obtain ⟨v, hv, hcount, hbound⟩ := h.fits.get ht
  have hpos : 0 < xs.length := List.length_pos_iff.mpr fun hnil => by
    rw [hnil] at hlast
    exact absurd hlast (by simp)
  obtain ⟨s0, hs0, hsound0, hvars0, hcells0⟩ := setCount_becomes h.sound hv (v.count - 1)
  obtain rfl := Option.some.inj hs0
  have hv0 : (s.setCount x (v.count - 1)).vars x = some { v with count := v.count - 1 } := by
    rw [hvars0, Function.update_self]
  have hcells : (s.setCount x (v.count - 1)).cells = contents t := hcells0.trans h.cells
  have hvalue : (s.setCount x (v.count - 1)).cells x (v.count - 1) = some value := by
    rw [hcells, contents_eq ht, hcount, ← List.getLast?_eq_getElem?, hlast]
  obtain ⟨s1, hmove, hsound1, hvars1, hcells1⟩ :=
    moveOut_becomes moved hsound0 hv0 (by simp only; omega) hvalue
  have hv1 : s1.vars x = some { v with count := v.count - 1 } := by rw [hvars1, hv0]
  have hleft : s1.cells x (v.count - 1) = some (moved value) := by
    rw [hcells1, setCell, Function.update_self, Function.update_self]
  obtain ⟨s2, hdestroy, hsound2, hvars2, hcells2⟩ := destroy_becomes hsound1 hv1 (by simp only; omega) hleft
  refine ⟨s2, ?_, hsound2, ?_, ?_⟩
  · simp only [State.pop, hv, Option.bind_eq_bind, Option.bind_some, if_pos (show 0 < v.count by omega), hmove,
      hdestroy]
  · rw [hvars2, hvars1, hvars0]
    exact h.fits.update (by simp only [List.length_dropLast, hcount]) (by simp only; omega)
  · rw [hcells2, hcells1, hcells, hcount, setCell_setCell, setCell_dropLast ht]

theorem shift_becomes (moved : α → α) (hs : s.Sound) (hv : s.vars x = some v) {i j : ℕ} (hi : i < v.capacity)
    (hj : j < v.capacity) (hne : i ≠ j) {k k' : α} (hk : s.cells x j = some k) (hk' : s.cells x i = some k') :
    Becomes (s.shift moved x i j) s.vars (setCell (setCell s.cells x j (some (moved k))) x i (some k)) := by
  obtain ⟨s1, hmove, hs1, hvars1, hcells1⟩ := moveOut_becomes moved hs hv hj hk
  have hleft : s1.cells x i = some k' := by
    rw [hcells1, setCell, Function.update_self, Function.update_of_ne hne, hk']
  have hassign := assign_becomes hs1 (by rw [hvars1, hv]) hi hleft k
  simp only [State.shift, hmove, Option.bind_eq_bind, Option.bind_some]
  rwa [hvars1, hcells1] at hassign

/-- The elements before the pass `i` of `pop(id)`: those up to `i` went down by
one, and the one at `i` was moved from. -/
def closing (moved : α → α) (t : ι → Option (List α)) (x : ι) (xs : List α) (id i : ℕ) : ι → ℕ → Option α :=
  Function.update (contents t) x fun j =>
    if j < i then (xs.eraseIdx id)[j]? else if j = i then xs[i]?.map moved else xs[j]?

theorem setCell_closing_start (ht : t x = some xs) {id : ℕ} {value : α} (hvalue : xs[id]? = some value) :
    setCell (contents t) x id (some (moved value)) = closing moved t x xs id id := by
  refine setCell_contents ht fun j => ?_
  rw [List.getElem?_eraseIdx, hvalue]
  split_ifs with hlt heq
  · omega
  · rfl
  · rfl
  · rfl

theorem setCell_closing {id i : ℕ} (hid : id ≤ i) {k : α} (hk : xs[i + 1]? = some k) :
    setCell (setCell (closing moved t x xs id i) x (i + 1) (some (moved k))) x i (some k) =
      closing moved t x xs id (i + 1) := by
  simp only [setCell, closing, Function.update_self, Function.update_idem]
  congr 1
  funext j
  simp only [Function.update_apply, List.getElem?_eraseIdx, hk, Option.map_some]
  by_cases hj : j = i
  · rw [if_pos hj, if_pos (by omega), if_neg (by omega), hj, hk]
  · rw [if_neg hj]
    split_ifs with h1 h2 h3 h4 h5 h6
    all_goals first | omega | rfl

theorem setCell_closing_end {id : ℕ} (hid : id < xs.length) :
    setCell (closing moved t x xs id (xs.length - 1)) x (xs.length - 1) none =
      contents (Function.update t x (some (xs.eraseIdx id))) := by
  have hlen : (xs.eraseIdx id).length = xs.length - 1 := List.length_eraseIdx_of_lt hid
  rw [contents_update, setCell, closing, Function.update_self, Function.update_idem]
  congr 1
  funext j
  rw [Function.update_apply, Option.bind_some]
  by_cases hj : j = xs.length - 1
  · rw [if_pos hj, List.getElem?_eq_none (by omega)]
  · rw [if_neg hj, if_neg hj]
    by_cases hlt : j < xs.length - 1
    · rw [if_pos hlt]
    · rw [if_neg hlt, List.getElem?_eq_none (by omega), List.getElem?_eq_none (by omega)]

/-- The loop of `pop(id)`. -/
theorem closing_becomes (hs : s.Sound) (hv : s.vars x = some v) (hbound : xs.length ≤ v.capacity) {id : ℕ}
    (hid : id < xs.length) (hcells : s.cells = closing moved t x xs id id) :
    Becomes (run (fun s i => s.shift moved x i (i + 1)) (List.range' id (xs.length - 1 - id)) s) s.vars
      (closing moved t x xs id (xs.length - 1)) := by
  have hloop := run_becomes (f := fun s i => s.shift moved x i (i + 1))
    (c := closing moved t x xs id) (i := id) (n := xs.length - 1 - id) (fun i s1 hle hi hs1 hvars1 hcells1 => ?_)
    hs rfl hcells
  · rwa [show id + (xs.length - 1 - id) = xs.length - 1 by omega] at hloop
  · have hk : xs[i + 1]? = some xs[i + 1] := List.getElem?_eq_getElem (by omega)
    have hnext : s1.cells x (i + 1) = some xs[i + 1] := by
      rw [hcells1, closing, Function.update_self, if_neg (by omega), if_neg (by omega), hk]
    have hleft : s1.cells x i = some (moved xs[i]) := by
      rw [hcells1, closing, Function.update_self, if_neg (Nat.lt_irrefl i), if_pos rfl,
        List.getElem?_eq_getElem (by omega), Option.map_some]
    have hshift := shift_becomes moved hs1 (by rw [hvars1, hv]) (by omega) (by omega)
      (Nat.succ_ne_self i).symm hnext hleft
    rwa [hvars1, hcells1, setCell_closing hle hk] at hshift

theorem popAt_refines (moved : α → α) (h : Refines s t) (ht : t x = some xs) {id : ℕ} {value : α} (hvalue : xs[id]? = some value) :
    ∃ s', s.popAt moved x id = some (s', value) ∧ Refines s' (Function.update t x (some (xs.eraseIdx id))) := by
  obtain ⟨v, hv, hcount, hbound⟩ := h.fits.get ht
  have hid : id < xs.length := (List.getElem?_eq_some_iff.mp hvalue).1
  have hcell : s.cells x id = some value := by rw [h.cells, contents_eq ht, hvalue]
  obtain ⟨s1, hmove, hs1, hvars1, hcells1⟩ :=
    moveOut_becomes moved h.sound hv (by omega) hcell
  have hv1 : s1.vars x = some v := by rw [hvars1, hv]
  rw [h.cells, setCell_closing_start ht hvalue] at hcells1
  obtain ⟨s2, hloop, hs2, hvars2, hcells2⟩ := closing_becomes hs1 hv1 (by omega) hid hcells1
  have hv2 : s2.vars x = some v := by rw [hvars2, hv1]
  have hleft : s2.cells x (v.count - 1) = some (moved xs[xs.length - 1]) := by
    rw [hcells2, closing, Function.update_self, hcount, if_neg (Nat.lt_irrefl _), if_pos rfl,
      List.getElem?_eq_getElem (by omega), Option.map_some]
  obtain ⟨s3, hdestroy, hs3, hvars3, hcells3⟩ := destroy_becomes hs2 hv2 (by omega) hleft
  obtain ⟨s4, hs4, hsound4, hvars4, hcells4⟩ := setCount_becomes hs3 (by rw [hvars3, hv2]) (v.count - 1)
  obtain rfl := Option.some.inj hs4
  refine ⟨_, ?_, hsound4, ?_, ?_⟩
  · simp only [State.popAt, hv, Option.bind_eq_bind, Option.bind_some, if_neg (show ¬v.count ≤ id by omega), hmove]
    rw [← hcount] at hloop
    rw [hloop, Option.bind_some, hdestroy, Option.bind_some]
  · rw [hvars4, hvars3, hvars2, hvars1]
    exact h.fits.update (by simp only [List.length_eraseIdx_of_lt hid, hcount]) (by simp only; omega)
  · rw [hcells4, hcells3, hcells2, hcount, setCell_closing_end hid]

/-- The last steps of `push`, and of an insertion at the end. -/
theorem append_becomes (ht : t x = some xs) {w : Vec} (hroom : xs.length < w.capacity) (hs : s.Sound)
    (hvars : s.vars = Function.update vars x (some w)) (hcells : s.cells = contents t) (k : α) :
    Becomes ((s.construct x xs.length k).bind fun s => some (s.setCount x (xs.length + 1)))
      (Function.update vars x (some { w with count := xs.length + 1 }))
      (contents (Function.update t x (some (xs ++ [k])))) := by
  have hw : s.vars x = some w := by rw [hvars, Function.update_self]
  have hraw : s.cells x xs.length = none := by
    rw [hcells, contents_eq ht, List.getElem?_eq_none (Nat.le_refl _)]
  refine (construct_becomes hs hw hroom hraw k).bind fun s1 hs1 hvars1 hcells1 => ?_
  rw [← setCell_append ht, ← hcells, ← hcells1]
  exact setCount_last hs1 (hvars1.trans hvars) _

theorem append_fits (hfits : Fits vars t) {w : Vec} (hroom : xs.length < w.capacity) (k : α) :
    Fits (Function.update vars x (some { w with count := xs.length + 1 }))
      (Function.update t x (some (xs ++ [k]))) :=
  hfits.update (by simp only [List.length_append, List.length_singleton]) (by simp only; omega)

theorem push_refines (h : Refines s t) (ht : t x = some xs) (k : α) :
    ∃ s', s.push x k = some s' ∧ Refines s' (Function.update t x (some (xs ++ [k]))) := by
  obtain ⟨v, hv, hcount, -⟩ := h.fits.get ht
  obtain ⟨w, -, -, hroom, hreserve⟩ := reserve_becomes h.sound hv (xs.length + 1)
  refine Refines.of_becomes ?_ (append_fits h.fits (show xs.length < w.capacity by omega) k)
  simp only [State.push, hv, hcount, Option.bind_eq_bind, Option.bind_some]
  exact hreserve.bind fun s1 hs1 hvars1 hcells1 =>
    append_becomes ht (by omega) hs1 hvars1 (hcells1.trans h.cells) k

/-- An insertion at the end is a `push`. -/
theorem insert_refines (h : Refines s t) (ht : t x = some xs) (el : α) :
    ∃ s', s.insert moved x xs.length el = some s' ∧ Refines s' (Function.update t x (some (xs ++ [el]))) := by
  obtain ⟨v, hv, hcount, hbound⟩ := h.fits.get ht
  simp only [State.insert, hv, hcount, Option.bind_eq_bind, Option.bind_some, Nat.lt_irrefl, false_and, if_false,
    Nat.sub_self]
  by_cases hfull : xs.length = v.capacity
  · obtain ⟨w, -, -, hroom, hreserve⟩ := reserve_becomes h.sound hv (v.capacity * 2)
    have hlt : xs.length < w.capacity := by omega
    rw [if_pos hfull]
    refine Refines.of_becomes ?_ (append_fits h.fits hlt el)
    exact hreserve.bind fun s1 hs1 hvars1 hcells1 =>
      append_becomes ht hlt hs1 hvars1 (hcells1.trans h.cells) el
  · have hlt : xs.length < v.capacity := by omega
    rw [if_neg hfull]
    refine Refines.of_becomes ?_ (append_fits h.fits hlt el)
    exact append_becomes ht hlt h.sound (by rw [← hv, Function.update_eq_self]) h.cells el

/-- The elements of another `Vec` are copied after those that are there. -/
theorem copyElements_becomes (ht : t x = some xs) (hty : t y = some ys) (hxy : y ≠ x) {w : Vec}
    (hs : s.Sound) (hcells : s.cells = contents t) (hv : s.vars x = some v)
    (hroom : xs.length + ys.length ≤ v.capacity) (hw : s.vars y = some w) (hbound : ys.length ≤ w.capacity) :
    Becomes (s.copyElements x xs.length y ys.length) s.vars
      (contents (Function.update t x (some (xs ++ ys)))) := by
  have hloop := run_becomes (i := 0) (n := ys.length)
    (f := fun s i => (s.read y i).bind fun k => s.construct x (xs.length + i) k)
    (c := fun i => contents (Function.update t x (some (xs ++ ys.take i)))) (fun i s1 _ hi hs1 hvars1 hcells1 => ?_)
    hs rfl (by rw [List.take_zero, List.append_nil, ← ht, Function.update_eq_self, hcells])
  · rwa [Nat.zero_add, List.take_length] at hloop
  · have hi' : i < ys.length := by omega
    have hlen : (xs ++ ys.take i).length = xs.length + i := by
      rw [List.length_append, List.length_take, Nat.min_eq_left (Nat.le_of_lt hi')]
    have hti : Function.update t x (some (xs ++ ys.take i)) x = some (xs ++ ys.take i) := Function.update_self ..
    have hread : s1.read y i = some ys[i] := by
      rw [read_eq hs1 (by rw [hvars1, hw]) (by omega), hcells1,
        contents_eq (by rw [Function.update_of_ne hxy, hty]), List.getElem?_eq_getElem hi']
    have hraw : s1.cells x (xs.length + i) = none := by
      rw [hcells1, contents_eq hti, List.getElem?_eq_none (Nat.le_of_eq hlen)]
    have hconstruct := construct_becomes hs1 (by rw [hvars1, hv]) (by omega) hraw ys[i]
    rw [hvars1, hcells1, ← hlen, setCell_append hti, Function.update_idem, List.append_assoc, hlen,
      ← List.take_succ_eq_append_getElem hi'] at hconstruct
    rw [hread, Option.bind_some]
    exact hconstruct

/-- The last steps of the copies. -/
theorem copy_becomes (ht : t x = some xs) (hty : t y = some ys) (hxy : y ≠ x) (hfits : Fits vars t) {w : Vec}
    (hroom : xs.length + ys.length ≤ w.capacity) (hs : s.Sound) (hvars : s.vars = Function.update vars x (some w))
    (hcells : s.cells = contents t) :
    Becomes ((s.copyElements x xs.length y ys.length).bind fun s => some (s.setCount x (xs.length + ys.length)))
      (Function.update vars x (some { w with count := xs.length + ys.length }))
      (contents (Function.update t x (some (xs ++ ys)))) := by
  obtain ⟨u, hu, hucount, hubound⟩ := hfits.get hty
  refine (copyElements_becomes ht hty hxy hs hcells (by rw [hvars, Function.update_self]) hroom
    (by rw [hvars, Function.update_of_ne hxy, hu]) (by omega)).bind fun s1 hs1 hvars1 hcells1 => ?_
  rw [← hcells1]
  exact setCount_last hs1 (hvars1.trans hvars) _

theorem copy_fits (hfits : Fits vars t) {w : Vec} (hroom : xs.length + ys.length ≤ w.capacity) :
    Fits (Function.update vars x (some { w with count := xs.length + ys.length }))
      (Function.update t x (some (xs ++ ys))) :=
  hfits.update (by simp only [List.length_append]) hroom

theorem addCopy_refines (h : Refines s t) (ht : t x = some xs) (hty : t y = some ys) (hxy : y ≠ x) :
    ∃ s', s.addCopy x y = some s' ∧ Refines s' (Function.update t x (some (xs ++ ys))) := by
  obtain ⟨v, hv, hcount, -⟩ := h.fits.get ht
  obtain ⟨u, hu, hucount, -⟩ := h.fits.get hty
  obtain ⟨w, -, -, hroom, hreserve⟩ := reserve_becomes h.sound hv (xs.length + ys.length)
  have hle : xs.length + ys.length ≤ w.capacity := by omega
  refine Refines.of_becomes ?_ (copy_fits h.fits hle)
  simp only [State.addCopy, hv, hu, hcount, hucount, Option.bind_eq_bind, Option.bind_some]
  exact hreserve.bind fun s1 hs1 hvars1 hcells1 =>
    copy_becomes ht hty hxy h.fits hle hs1 hvars1 (hcells1.trans h.cells)

theorem copyAssign_refines (h : Refines s t) (ht : t x = some xs) (hty : t y = some ys) :
    ∃ s', s.copyAssign x y = some s' ∧ Refines s' (Function.update t x (some ys)) := by
  by_cases hxy : x = y
  · refine ⟨s, if_pos hxy, ?_⟩
    rwa [← hty, hxy, Function.update_eq_self]
  · obtain ⟨s1, hclear, h1⟩ := clear_refines h ht
    have ht1 : Function.update t x (some []) x = some [] := Function.update_self ..
    have hty1 : Function.update t x (some []) y = some ys := by rw [Function.update_of_ne (Ne.symm hxy), hty]
    obtain ⟨v, hv, -, hbound⟩ := h1.fits.get ht1
    obtain ⟨u, hu, hucount, -⟩ := h1.fits.get hty1
    simp only [State.copyAssign, if_neg hxy, hclear, hu, hucount, Option.bind_eq_bind, Option.bind_some]
    by_cases hnil : ys.length = 0
    · rw [if_pos hnil, List.eq_nil_of_length_eq_zero hnil]
      refine Refines.of_becomes (h1.cells ▸ setCount_becomes h1.sound hv 0) ?_
      have hfits : Fits (Function.update _ x (some { v with count := 0 })) (Function.update _ x (some [])) :=
        h1.fits.update rfl (Nat.zero_le _)
      rwa [Function.update_idem] at hfits
    · obtain ⟨w, -, -, hroom, hreserve⟩ := reserve_becomes h1.sound hv ys.length
      have hle : ([] : List α).length + ys.length ≤ w.capacity := by rw [List.length_nil]; omega
      rw [if_neg hnil]
      have hcopy : Becomes ((s1.reserve x ys.length).bind fun s =>
          (s.copyElements x 0 y ys.length).bind fun s => some (s.setCount x ys.length))
          (Function.update s1.vars x (some { w with count := ys.length }))
          (contents (Function.update (Function.update t x (some [])) x (some ys))) := by
        refine hreserve.bind fun s2 hs2 hvars2 hcells2 => ?_
        have hlast := copy_becomes ht1 hty1 (Ne.symm hxy) h1.fits hle hs2 hvars2 (hcells2.trans h1.cells)
        simpa only [List.length_nil, Nat.zero_add, List.nil_append] using hlast
      have hfits := copy_fits (x := x) h1.fits hle
      rw [Function.update_idem] at hcopy
      simp only [List.length_nil, Nat.zero_add, List.nil_append, Function.update_idem] at hfits
      exact Refines.of_becomes hcopy hfits

theorem copyConstruct_refines (h : Refines s t) (ht : t x = none) (hty : t y = some ys) :
    ∃ s', s.copyConstruct x y = some s' ∧ Refines s' (Function.update t x (some ys)) := by
  have hxy : y ≠ x := fun heq => by
    rw [heq, ht] at hty
    exact absurd hty (by simp)
  have h1 := construct_refines h ht
  obtain ⟨u, hu, hucount, hubound⟩ := h.fits.get hty
  simp only [State.copyConstruct, hu, hucount, Option.bind_eq_bind, Option.bind_some]
  by_cases hnil : ys.length = 0
  · rw [if_neg (not_not.mpr hnil), List.eq_nil_of_length_eq_zero hnil]
    exact ⟨_, rfl, h1⟩
  · have ht1 : Function.update t x (some []) x = some [] := Function.update_self ..
    have hty1 : Function.update t x (some []) y = some ys := by rw [Function.update_of_ne hxy, hty]
    have hv1 : (s.setVec x (some Vec.empty)).vars x = some Vec.empty := Function.update_self ..
    have hle : ([] : List α).length + ys.length ≤ u.capacity := by rw [List.length_nil]; omega
    obtain ⟨s2, hs2, hsound2, hvars2, hcells2⟩ := alloc_becomes h1.sound hv1 rfl (n := u.capacity) (by omega)
    obtain rfl := Option.some.inj hs2
    let w : Vec := { Vec.empty with data := some (s.setVec x (some Vec.empty)).next, capacity := u.capacity }
    have hcopy := copy_becomes (w := w) ht1 hty1 hxy h1.fits hle hsound2 hvars2 (hcells2.trans h1.cells)
    have hfits := copy_fits (x := x) (w := w) h1.fits hle
    simp only [List.length_nil, Nat.zero_add, List.nil_append, Function.update_idem] at hcopy hfits
    rw [if_pos hnil]
    exact Refines.of_becomes hcopy hfits

/-- Two variables are swapped. -/
theorem swap_refines (h : Refines s t) (x y : ι) :
    Refines { s with vars := s.vars ∘ Equiv.swap y x } (t ∘ Equiv.swap y x) := by
  obtain ⟨s', hs', hsound, -, hcells⟩ := permute_becomes h.sound (Equiv.swap y x)
  obtain rfl := Option.some.inj hs'
  exact ⟨hsound, fun z => h.fits (Equiv.swap y x z), by rw [hcells, h.cells]; rfl⟩

theorem moveAssign_refines (h : Refines s t) (ht : t x = some xs) (hty : t y = some ys) :
    ∃ s', s.moveAssign x y = some s' ∧
      Refines s' (Function.update (Function.update t x (some ys)) y (some xs)) := by
  by_cases hxy : x = y
  · refine ⟨s, if_pos hxy, ?_⟩
    subst hxy
    rwa [Function.update_idem, ← ht, Function.update_eq_self]
  · obtain ⟨v, hv, -, -⟩ := h.fits.get ht
    obtain ⟨w, hw, -, -⟩ := h.fits.get hty
    have hswap := swap_refines h x y
    rw [Equiv.comp_swap_eq_update, Equiv.comp_swap_eq_update, hv, hw, ht, hty] at hswap
    exact ⟨_, by simp only [State.moveAssign, if_neg hxy, hv, hw, Option.bind_eq_bind, Option.bind_some,
      State.setVec], hswap⟩

theorem moveConstruct_refines (h : Refines s t) (ht : t x = none) (hty : t y = some ys) :
    ∃ s', s.moveConstruct x y = some s' ∧
      Refines s' (Function.update (Function.update t x (some ys)) y (some [])) := by
  have hxy : y ≠ x := fun heq => by
    rw [heq, ht] at hty
    exact absurd hty (by simp)
  obtain ⟨w, hw, -, -⟩ := h.fits.get hty
  have hswap := swap_refines (construct_refines h ht) x y
  simp only [State.setVec, Equiv.comp_swap_eq_update, Function.update_self, Function.update_of_ne hxy,
    Function.update_idem, hw, hty] at hswap
  exact ⟨_, by simp only [State.moveConstruct, hw, Option.bind_eq_bind, Option.bind_some, State.setVec], hswap⟩

/-- A list of which the first `i` elements were moved from. -/
def movedFrom (moved : α → α) (ys : List α) (i : ℕ) : List α := (ys.take i).map moved ++ ys.drop i

omit [DecidableEq ι] in
theorem movedFrom_length (moved : α → α) (ys : List α) (i : ℕ) : (movedFrom moved ys i).length = ys.length := by
  simp only [movedFrom, List.length_append, List.length_map, List.length_take, List.length_drop]
  omega

theorem movedFrom_getElem? {i : ℕ} (hi : i < ys.length) : (movedFrom moved ys i)[i]? = some ys[i] := by
  rw [movedFrom, List.getElem?_append_right (by simp only [List.length_map, List.length_take]; omega)]
  simp only [List.length_map, List.length_take, Nat.min_eq_left (Nat.le_of_lt hi), Nat.sub_self,
    List.getElem?_drop, Nat.add_zero, List.getElem?_eq_getElem hi]

theorem movedFrom_set {i : ℕ} (hi : i < ys.length) :
    (movedFrom moved ys i).set i (moved ys[i]) = movedFrom moved ys (i + 1) := by
  have hlen : ((ys.take i).map moved).length = i := by
    rw [List.length_map, List.length_take, Nat.min_eq_left (Nat.le_of_lt hi)]
  rw [movedFrom, movedFrom, List.drop_eq_getElem_cons hi, List.set_append_right _ _ (by omega), hlen, Nat.sub_self,
    List.set_cons_zero, List.take_succ_eq_append_getElem hi, List.map_append, List.append_assoc]
  rfl

/-- The lists before the pass `i` of the loop that moves; `x` and `y` may be the
same. -/
def moving (moved : α → α) (t : ι → Option (List α)) (x y : ι) (ys : List α) (i : ℕ) : ι → Option (List α) :=
  let t := Function.update t y (some (movedFrom moved ys i))
  Function.update t x ((t x).map (· ++ ys.take i))

theorem moving_zero (ht : t x = some xs) (hty : t y = some ys) : moving moved t x y ys 0 = t := by
  have hsame : Function.update t y (some (movedFrom moved ys 0)) = t := by
    rw [movedFrom, List.take_zero, List.map_nil, List.nil_append, List.drop_zero, ← hty, Function.update_eq_self]
  rw [moving, hsame, ht, Option.map_some, List.take_zero, List.append_nil, ← ht, Function.update_eq_self]

/-- One pass, on the lists: the element that is moved from, and the one that is
constructed. -/
theorem moving_succ (moved : α → α) (ht : t x = some xs) (hty : t y = some ys) {i : ℕ} (hi : i < ys.length) :
    ∃ l m, moving moved t x y ys i y = some l ∧ l[i]? = some ys[i] ∧
      Function.update (moving moved t x y ys i) y (some (l.set i (moved ys[i]))) x = some m ∧
      m.length = xs.length + i ∧
      Function.update (Function.update (moving moved t x y ys i) y (some (l.set i (moved ys[i])))) x
        (some (m ++ [ys[i]])) = moving moved t x y ys (i + 1) := by
  have hlen := movedFrom_length moved ys i
  have htake : (ys.take i).length = i := by rw [List.length_take, Nat.min_eq_left (Nat.le_of_lt hi)]
  by_cases hxy : y = x
  · subst hxy
    obtain rfl := Option.some.inj (ht.symm.trans hty)
    have hmoving : ∀ j, moving moved t y y xs j =
        Function.update t y (some (movedFrom moved xs j ++ xs.take j)) := fun j => by
      rw [moving, Function.update_self, Function.update_idem, Option.map_some]
    refine ⟨movedFrom moved xs i ++ xs.take i, (movedFrom moved xs i ++ xs.take i).set i (moved xs[i]), ?_, ?_,
      Function.update_self .., ?_, ?_⟩
    · rw [hmoving, Function.update_self]
    · rw [List.getElem?_append_left (by omega), movedFrom_getElem? hi]
    · rw [List.length_set, List.length_append, hlen, htake]
    · rw [hmoving, hmoving, Function.update_idem, Function.update_idem, List.set_append_left _ _ (by omega),
        movedFrom_set hi, List.append_assoc, ← List.take_succ_eq_append_getElem hi]
  · have hmoving : ∀ j, moving moved t x y ys j =
        Function.update (Function.update t x (some (xs ++ ys.take j))) y (some (movedFrom moved ys j)) :=
      fun j => by
        rw [moving, Function.update_of_ne (Ne.symm hxy), ht, Option.map_some, Function.update_comm hxy]
    refine ⟨movedFrom moved ys i, xs ++ ys.take i, ?_, movedFrom_getElem? hi, ?_, ?_, ?_⟩
    · rw [hmoving, Function.update_self]
    · rw [hmoving, Function.update_idem, Function.update_of_ne (Ne.symm hxy), Function.update_self]
    · rw [List.length_append, htake]
    · rw [hmoving, hmoving, Function.update_idem, movedFrom_set hi, Function.update_comm hxy,
        Function.update_idem, List.append_assoc, ← List.take_succ_eq_append_getElem hi]

/-- The elements of a `Vec` are moved after those that are there. -/
theorem moveElements_becomes (ht : t x = some xs) (hty : t y = some ys) {w : Vec} (hs : s.Sound)
    (hcells : s.cells = contents t) (hv : s.vars x = some v) (hroom : xs.length + ys.length ≤ v.capacity)
    (hw : s.vars y = some w) (hbound : ys.length ≤ w.capacity) :
    Becomes (s.moveElements moved x xs.length y ys.length) s.vars
      (contents (moving moved t x y ys ys.length)) := by
  have hloop := run_becomes (i := 0) (n := ys.length)
    (f := fun s i => (s.moveOut moved y i).bind fun r => r.2.construct x (xs.length + i) r.1)
    (c := fun i => contents (moving moved t x y ys i)) (fun i s1 _ hi hs1 hvars1 hcells1 => ?_) hs rfl
    (by rw [moving_zero ht hty, hcells])
  · rwa [Nat.zero_add] at hloop
  · have hi' : i < ys.length := by omega
    obtain ⟨l, m, hl, hvalue, hm, hlen, hnext⟩ := moving_succ moved ht hty hi'
    have hcell : s1.cells y i = some ys[i] := by rw [hcells1, contents_eq hl, hvalue]
    obtain ⟨s2, hmove, hs2, hvars2, hcells2⟩ :=
      moveOut_becomes moved hs1 (by rw [hvars1, hw]) (by omega) hcell
    rw [hcells1, setCell_set hl (List.getElem?_eq_some_iff.mp hvalue).1] at hcells2
    have hraw : s2.cells x (xs.length + i) = none := by
      rw [hcells2, contents_eq hm, List.getElem?_eq_none (Nat.le_of_eq hlen)]
    have hconstruct := construct_becomes hs2 (by rw [hvars2, hvars1, hv]) (by omega) hraw ys[i]
    rw [hvars2, hvars1, hcells2, ← hlen, setCell_append hm, hnext, hlen] at hconstruct
    rw [hmove, Option.bind_some]
    exact hconstruct

theorem moving_all {l : List α} (hl : Function.update t y (some (ys.map moved)) x = some l) :
    moving moved t x y ys ys.length =
      Function.update (Function.update t y (some (ys.map moved))) x (some (l ++ ys)) := by
  rw [moving, movedFrom, List.take_length, List.drop_length, List.append_nil, hl, Option.map_some]

/-- Where `x` and `arr` are the same, its elements are moved to its end. -/
theorem pushElements_refines (moved : α → α) (h : Refines s t) (hty : t y = some ys) {l : List α}
    (hl : Function.update t y (some (ys.map moved)) x = some l) :
    ∃ s', s.pushElements moved x y = some s' ∧
      Refines s' (Function.update (Function.update t y (some (ys.map moved))) x (some (l ++ ys))) := by
  have hmap : Fits s.vars (Function.update t y (some (ys.map moved))) := h.fits.replace hty (List.length_map ..)
  obtain ⟨v, hv, hcount, -⟩ := hmap.get hl
  obtain ⟨xs, ht, hlen⟩ : ∃ xs, t x = some xs ∧ xs.length = l.length := by
    have hsome := (h.fits x).1
    rw [hv, Option.map_some] at hsome
    obtain ⟨xs, ht, hlen⟩ := Option.map_eq_some_iff.mp hsome.symm
    exact ⟨xs, ht, hlen.trans hcount⟩
  obtain ⟨u, hu, hucount, -⟩ := h.fits.get hty
  obtain ⟨w, hwcount, -, hroom, hreserve⟩ := reserve_becomes h.sound hv (v.count + u.count)
  have hfits : Fits (Function.update s.vars x (some { w with count := xs.length + ys.length }))
      (Function.update (Function.update t y (some (ys.map moved))) x (some (l ++ ys))) :=
    hmap.update (by simp only [List.length_append]; omega) (by simp only; omega)
  refine Refines.of_becomes ?_ hfits
  simp only [State.pushElements, hv, hu, Option.bind_eq_bind, Option.bind_some]
  refine hreserve.bind fun s1 hs1 hvars1 hcells1 => ?_
  have hv1 : s1.vars x = some w := by rw [hvars1, Function.update_self]
  have hfits1 : Fits s1.vars t := by
    have hfits : Fits (Function.update s.vars x (some w)) (Function.update t x (some xs)) :=
      h.fits.update (by omega) (by omega)
    rwa [← ht, Function.update_eq_self, ← hvars1] at hfits
  obtain ⟨u1, hu1, hucount1, hubound1⟩ := hfits1.get hty
  rw [hcount, ← hlen, hucount, ← moving_all hl]
  refine (moveElements_becomes ht hty hs1 (hcells1.trans h.cells) hv1 (by omega) hu1 (by omega)).bind
    fun s2 hs2 hvars2 hcells2 => ?_
  rw [← hcells2]
  exact setCount_last hs2 (hvars2.trans hvars1) _

theorem softAdd_refines (h : Refines s t) (ht : t x = some xs) (hty : t y = some ys) :
    ∃ s', s.softAdd moved x y = some s' ∧
      Refines s' (Function.update (Function.update t x (some (xs ++ ys))) y (some [])) := by
  obtain ⟨l, hl⟩ : ∃ l, Function.update t y (some (ys.map moved)) x = some l := by
    by_cases hxy : x = y
    · exact ⟨ys.map moved, by rw [hxy, Function.update_self]⟩
    · exact ⟨xs, by rw [Function.update_of_ne hxy, ht]⟩
  obtain ⟨s1, hpush, h1⟩ := pushElements_refines moved h hty hl
  obtain ⟨l', hl'⟩ : ∃ l', Function.update (Function.update t y (some (ys.map moved))) x (some (l ++ ys)) y =
      some l' := by
    by_cases hxy : y = x
    · exact ⟨l ++ ys, by rw [hxy, Function.update_self]⟩
    · exact ⟨ys.map moved, by rw [Function.update_of_ne hxy, Function.update_self]⟩
  obtain ⟨s2, hclear, h2⟩ := clear_refines h1 hl'
  refine ⟨s2, by simp only [State.softAdd, hpush, Option.bind_eq_bind, Option.bind_some, hclear], ?_⟩
  have hlists : Function.update (Function.update (Function.update t y (some (ys.map moved))) x (some (l ++ ys))) y
      (some []) = Function.update (Function.update t x (some (xs ++ ys))) y (some []) := by
    by_cases hxy : x = y
    · subst hxy
      simp only [Function.update_idem]
    · rw [Function.update_of_ne hxy, ht, Option.some.injEq] at hl
      rw [Function.update_comm hxy, Function.update_idem, Function.update_comm hxy, hl]
  rwa [hlists] at h2

/-- Where there is nothing to move, the `+=` that moves frees the other block. -/
theorem addMove_refines (h : Refines s t) (ht : t x = some xs) (hty : t y = some []) (hxy : x ≠ y) :
    ∃ s', s.addMove moved x y = some s' ∧
      Refines s' (Function.update (Function.update t x (some xs)) y (some [])) := by
  obtain ⟨s1, hpush, h1⟩ := pushElements_refines moved h hty (l := xs)
    (by rw [Function.update_of_ne hxy, ht])
  rw [List.map_nil, List.append_nil, Function.update_comm (Ne.symm hxy)] at h1
  have hty1 : Function.update (Function.update t x (some xs)) y (some []) y = some [] := Function.update_self ..
  obtain ⟨w, hw, -, -⟩ := h1.fits.get hty1
  have hfree := free_becomes h1.sound hw (fun i => by rw [h1.cells, contents_nil hty1]) (o := some Vec.empty)
    fun w hw => by
      obtain rfl := Option.some.inj hw
      exact ⟨rfl, rfl⟩
  have hfits : Fits (Function.update _ y (some Vec.empty)) (Function.update _ y (some [])) :=
    h1.fits.update rfl (Nat.le_refl _)
  rw [Function.update_idem] at hfits
  obtain ⟨s2, hs2, h2⟩ := Refines.of_becomes (h1.cells ▸ hfree) hfits
  refine ⟨s2, ?_, h2⟩
  simp only [State.addMove, hpush, Option.bind_eq_bind, Option.bind_some]
  rwa [Option.map_eq_bind] at hs2

end Steps

omit [DecidableEq ι] in
theorem lift_refines {r : Option (State ι α)} {t t' : ι → Option (List α)} {out : Option α}
    (hr : ∃ s', r = some s' ∧ Refines s' t') (hout : (t', none) = (t, out)) :
    ∃ s', r.map (fun s => (s, none)) = some (s', out) ∧ Refines s' t := by
  obtain ⟨s', rfl, h⟩ := hr
  obtain ⟨rfl, rfl⟩ := Prod.mk.inj hout
  exact ⟨s', rfl, h⟩

/-- **One operation** on the `Vec`s is the one on the lists. -/
theorem exec_refines {moved : α → α} {s : State ι α} {t t' : ι → Option (List α)} {o : Op ι α} {out : Option α}
    (h : Refines s t) (hsound : SoundStep s o) (hspec : Lists.exec moved t o = some (t', out)) :
    ∃ s', exec moved s o = some (s', out) ∧ Refines s' t' := by
  cases o with
  | construct x =>
    rw [Lists.exec, Option.ite_none_right_eq_some, Option.some.injEq, Prod.mk.injEq] at hspec
    obtain ⟨ht, rfl, rfl⟩ := hspec
    exact ⟨_, rfl, construct_refines h ht⟩
  | copyConstruct x other =>
    simp only [Lists.exec, Option.bind_eq_bind, Option.bind_eq_some_iff, Option.ite_none_right_eq_some] at hspec
    obtain ⟨ys, hty, ht, hout⟩ := hspec
    exact lift_refines (copyConstruct_refines h ht hty) (Option.some.inj hout)
  | moveConstruct x other =>
    simp only [Lists.exec, Option.bind_eq_bind, Option.bind_eq_some_iff, Option.ite_none_right_eq_some] at hspec
    obtain ⟨ys, hty, ht, hout⟩ := hspec
    exact lift_refines (moveConstruct_refines h ht hty) (Option.some.inj hout)
  | copyAssign x other =>
    simp only [Lists.exec, Option.bind_eq_bind, Option.bind_eq_some_iff] at hspec
    obtain ⟨xs, ht, ys, hty, hout⟩ := hspec
    exact lift_refines (copyAssign_refines h ht hty) (Option.some.inj hout)
  | moveAssign x other =>
    simp only [Lists.exec, Option.bind_eq_bind, Option.bind_eq_some_iff] at hspec
    obtain ⟨xs, ht, ys, hty, hout⟩ := hspec
    exact lift_refines (moveAssign_refines h ht hty) (Option.some.inj hout)
  | addCopy x other =>
    simp only [Lists.exec, Option.bind_eq_bind, Option.bind_eq_some_iff, Option.ite_none_left_eq_some] at hspec
    obtain ⟨xs, ht, ys, hty, hxy, hout⟩ := hspec
    exact lift_refines (addCopy_refines h ht hty (Ne.symm hxy)) (Option.some.inj hout)
  | addMove x other =>
    simp only [Lists.exec, Option.bind_eq_bind, Option.bind_eq_some_iff, Option.ite_none_left_eq_some] at hspec
    obtain ⟨xs, ht, ys, hty, hxy, hout⟩ := hspec
    obtain ⟨w, hw, hcount, -⟩ := h.fits.get hty
    have hnil : ys = [] := List.eq_nil_of_length_eq_zero (hcount.symm.trans (hsound w hw))
    rw [hnil, List.append_nil] at hout
    exact lift_refines (addMove_refines h ht (hnil ▸ hty) hxy) (Option.some.inj hout)
  | softAdd x rhs =>
    simp only [Lists.exec, Option.bind_eq_bind, Option.bind_eq_some_iff] at hspec
    obtain ⟨xs, ht, ys, hty, hout⟩ := hspec
    exact lift_refines (softAdd_refines h ht hty) (Option.some.inj hout)
  | pushElements x arr =>
    simp only [Lists.exec, Option.bind_eq_bind, Option.bind_eq_some_iff] at hspec
    obtain ⟨ys, hty, l, hl, hout⟩ := hspec
    exact lift_refines (pushElements_refines moved h hty hl) (Option.some.inj hout)
  | push x value =>
    simp only [Lists.exec, Option.bind_eq_bind, Option.bind_eq_some_iff] at hspec
    obtain ⟨xs, ht, hout⟩ := hspec
    exact lift_refines (push_refines h ht value) (Option.some.inj hout)
  | pop x =>
    simp only [Lists.exec, Option.bind_eq_bind, Option.bind_eq_some_iff] at hspec
    obtain ⟨xs, ht, value, hlast, hout⟩ := hspec
    obtain ⟨rfl, rfl⟩ := Prod.mk.inj (Option.some.inj hout)
    obtain ⟨s', hpop, h'⟩ := pop_refines moved h ht hlast
    exact ⟨s', by rw [exec, hpop, Option.map_some], h'⟩
  | popAt x id =>
    simp only [Lists.exec, Option.bind_eq_bind, Option.bind_eq_some_iff] at hspec
    obtain ⟨xs, ht, value, hvalue, hout⟩ := hspec
    obtain ⟨rfl, rfl⟩ := Prod.mk.inj (Option.some.inj hout)
    obtain ⟨s', hpop, h'⟩ := popAt_refines moved h ht hvalue
    exact ⟨s', by rw [exec, hpop, Option.map_some], h'⟩
  | insert x id el =>
    simp only [Lists.exec, Option.bind_eq_bind, Option.bind_eq_some_iff, Option.ite_none_right_eq_some] at hspec
    obtain ⟨xs, ht, hid, hout⟩ := hspec
    obtain ⟨v, hv, hcount, -⟩ := h.fits.get ht
    have hend : id = xs.length := Nat.le_antisymm hid (hcount ▸ hsound v hv)
    rw [hend, List.insertIdx_length_self] at hout
    rw [hend]
    exact lift_refines (insert_refines h ht el) (Option.some.inj hout)
  | clear x =>
    simp only [Lists.exec, Option.bind_eq_bind, Option.bind_eq_some_iff] at hspec
    obtain ⟨xs, ht, hout⟩ := hspec
    exact lift_refines (clear_refines h ht) (Option.some.inj hout)
  | release x =>
    simp only [Lists.exec, Option.bind_eq_bind, Option.bind_eq_some_iff] at hspec
    obtain ⟨xs, ht, hout⟩ := hspec
    exact lift_refines (release_refines h ht) (Option.some.inj hout)
  | destruct x =>
    simp only [Lists.exec, Option.bind_eq_bind, Option.bind_eq_some_iff] at hspec
    obtain ⟨xs, ht, hout⟩ := hspec
    exact lift_refines (destruct_refines h ht) (Option.some.inj hout)

/-- The `Vec`s hold the lists, and the same elements were popped. -/
def RefinesRun (s : State ι α × List α) (t : (ι → Option (List α)) × List α) : Prop :=
  Refines s.1 t.1 ∧ s.2 = t.2

theorem step_refines {moved : α → α} {s : State ι α × List α} {t t' : (ι → Option (List α)) × List α} {o : Op ι α}
    (h : RefinesRun s t) (hsound : SoundStep s.1 o) (hspec : Lists.step moved t o = some t') :
    ∃ s', step moved s o = some s' ∧ RefinesRun s' t' := by
  obtain ⟨⟨t1, out⟩, hexec, rfl⟩ := Option.map_eq_some_iff.mp hspec
  obtain ⟨s1, hs1, h1⟩ := exec_refines h.1 hsound hexec
  exact ⟨(s1, out.toList ++ s.2), by rw [step, hs1, Option.map_some], h1, by rw [h.2]⟩

omit [DecidableEq ι] in
theorem refines_init : Refines (init : State ι α) fun _ => none where
  sound :=
    { accounted := accounted_empty
      fresh _ _ := rfl
      raw _ _ _ := rfl
      unbacked _ _ hv := absurd hv (by simp [init])
      backed _ _ _ hv := absurd hv (by simp [init])
      apart _ _ _ hx := absurd hx (by simp [dataOf, init])
      owned _ hb := absurd rfl hb }
  fits _ := ⟨rfl, fun _ hv => absurd hv (by simp [init])⟩
  cells := rfl

omit [DecidableEq ι] in
/-- Where no variable is left, no slot is filled. -/
theorem State.Sound.all_raw {s : State ι α} (h : s.Sound) (hgone : ∀ x, s.vars x = none) (a : ℕ × ℕ) :
    s.slots.slot a = none := by
  refine h.raw a.1 a.2 (by_contra fun hsize => ?_)
  obtain ⟨x, hx⟩ := h.owned a.1 hsize
  rw [dataOf, hgone x] at hx
  exact absurd hx (by simp)

/-- **`Vec` refines a list and owns its elements exactly**, in every run without
insertions before the end and `+=` that move elements: it gets through, the
`Vec`s hold the lists, the same elements are popped, and when all variables are
gone every element that was constructed was destroyed exactly once. -/
theorem vec_refines {moved : α → α} {ops : List (Op ι α)} {t : (ι → Option (List α)) × List α}
    (hspec : run (Lists.step moved) ops (fun _ => none, []) = some t)
    (hsound : Meets (step moved) (fun s => SoundStep s.1) ops (init, [])) :
    ∃ s, run (step moved) ops (init, []) = some s ∧ RefinesRun s t ∧
      ((∀ x, t.1 x = none) → ∀ id, s.1.slots.destroyed.count id = if id < s.1.slots.next then 1 else 0) := by
  have hstep : ∀ (s : State ι α × List α) (o : Op ι α) (t t' : (ι → Option (List α)) × List α),
      RefinesRun s t → SoundStep s.1 o → Lists.step moved t o = some t' →
      ∃ s', step moved s o = some s' ∧ RefinesRun s' t' := fun _ _ _ _ => step_refines
  obtain ⟨s, hrun, h⟩ := run_refines_of_meets hstep ops ⟨refines_init, rfl⟩ hsound hspec
  refine ⟨s, hrun, h, fun hgone => h.1.sound.accounted.all_destroyed (h.1.sound.all_raw fun x => ?_)⟩
  exact h.1.fits.gone (hgone x)

instance (s : State ι α) : ∀ o, Decidable (SoundStep s o)
  | .insert x id _ => inferInstanceAs (Decidable (∀ v ∈ s.vars x, v.count ≤ id))
  | .addMove _ other => inferInstanceAs (Decidable (∀ w ∈ s.vars other, w.count = 0))
  | .construct _ | .copyConstruct _ _ | .moveConstruct _ _ | .copyAssign _ _ | .moveAssign _ _ | .addCopy _ _
  | .softAdd _ _ | .pushElements _ _ | .push _ _ | .pop _ | .popAt _ _ | .clear _ | .release _ | .destruct _ =>
    inferInstanceAs (Decidable True)

/-- Elements are pushed, copied, added, taken out and inserted at the end. -/
def addAndTake : List (Op ℕ ℕ) :=
  [.construct 0, .push 0 5, .push 0 6, .copyConstruct 1 0, .softAdd 0 1, .popAt 0 1, .insert 0 3 7, .addMove 0 1,
    .destruct 0, .destruct 1]

theorem vec_refines_addAndTake : ∃ t, run (Lists.step id) addAndTake (fun _ => none, []) = some t ∧
    ∃ s, run (step id) addAndTake (init, []) = some s ∧ RefinesRun s t ∧
      ((∀ x, t.1 x = none) → ∀ id, s.1.slots.destroyed.count id = if id < s.1.slots.next then 1 else 0) :=
  ⟨_, rfl, vec_refines rfl (by decide)⟩

/-- An insertion before the end assigns to a raw slot; a `+=` that moves loses the
objects that were moved from. -/
theorem insert_assigns_raw :
    (run (Lists.step id) [.construct 0, .push 0 5, .insert 0 0 6] ((fun _ => none : ℕ → _), [])).isSome = true ∧
      run (step id) [.construct 0, .push 0 5, .insert 0 0 6] ((init : State ℕ ℕ), []) = none ∧
      (run (step id) [.construct 0, .construct 1, .push 1 5, .addMove 0 1, .destruct 0, .destruct 1]
        ((init : State ℕ ℕ), [])).map (fun s => (s.1.slots.next, s.1.slots.destroyed)) = some (2, [1]) :=
  ⟨rfl, rfl, rfl⟩

end VecHeap
end WingOS
