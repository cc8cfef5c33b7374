/-
# `Result` and `Optional`

The storage of the variables of `libcore/result.hpp` and `libcore/optional.hpp`:
a flag and a slot, which is raw or holds a value or an error. Each operation is
what it does to the slots, and does not get through if it uses one against its
state. Objects that are no part of a variable (parameters, what `take` returns)
come and go with their expressions.

`Result::success` assigns the value to the slot in which the default constructor
made the error. `Optional`'s move constructor assigns to the raw slot, and its
move assignment and `take` clear the flag of a slot that still holds an object.
In every run without these the storage is exact (`storage_exact`).

Key definitions: `State`, `step`, `Allowed`, `SoundStep`, `Exact`.
Key theorems: `step_exact`, `storage_exact`.
-/
import WingOS.Lib.Run
import WingOS.Lib.Slots

namespace WingOS
namespace ResultOptional

open Lib (Slots run Meets run_total_of_meets)
open Lib.Slots (Accounted accounted_empty accounted_construct accounted_destroy accounted_modify construct_eq
  destroy_eq modify_eq)

/-- The alternatives of the union of a `Result`; an `Optional` has values. -/
inductive Alt where
  | value
  | error
  deriving DecidableEq

/-- A variable, with its flag. -/
inductive Var where
  | result (isError : Bool)
  | optional (containValue : Bool)
  deriving DecidableEq

/-- What the slot of a variable should hold, by its flag. -/
def Var.holds : Var → Option Alt
  | .result true => some .error
  | .result false => some .value
  | .optional true => some .value
  | .optional false => none

variable {ι : Type*} [DecidableEq ι]

/-- The variables, and their storage. -/
structure State (ι : Type*) where
  vars : ι → Option Var
  slots : Slots ι Alt

inductive Op (ι : Type*) where
  | defaultResult (x : ι)
  | resultOfValue (x : ι)
  | resultOfError (x : ι)
  | success (x : ι)
  | error (x : ι)
  | moveResult (x y : ι)
  | moveAssignResult (x y : ι)
  | takeResult (x : ι)
  | emptyOptional (x : ι)
  | optionalOfValue (x : ι)
  | copyOptional (x y : ι)
  | moveOptional (x y : ι)
  | copyAssignOptional (x y : ι)
  | moveAssignOptional (x y : ι)
  | assignValue (x : ι)
  | takeOptional (x : ι)
  | destruct (x : ι)
  deriving DecidableEq

def State.setVar (s : State ι) (x : ι) (v : Option Var) : State ι := { s with vars := Function.update s.vars x v }

/-- `new (&slot) T(..)`, and the constructors that name a member of the union. -/
def State.construct (s : State ι) (x : ι) (a : Alt) : Option (State ι) :=
  (s.slots.construct x a).map fun slots => { s with slots }

/-- `slot.~T()`. -/
def State.destroy (s : State ι) (x : ι) (a : Alt) : Option (State ι) :=
  (s.slots.destroy (· = a) x).map fun slots => { s with slots }

/-- `slot = ..`, or a move or copy out of the slot: there has to be an object of
the type. -/
def State.use (s : State ι) (x : ι) (a : Alt) : Option (State ι) :=
  (s.slots.modify (· = a) x id).map fun slots => { s with slots }

/-- The storage of a variable that is gone: an object in it is lost. -/
def State.lose (s : State ι) (x : ι) : State ι :=
  { vars := Function.update s.vars x none, slots := s.slots.put x none }

def altOf (isError : Bool) : Alt := if isError then .error else .value

/-- `Result()`, before the flag is changed. -/
def defaultResult (s : State ι) (x : ι) : Option (State ι) :=
  (s.construct x .error).map fun s => s.setVar x (some (.result true))

/-- One operation. The copy constructor and the copy assignment of `Result` are
deleted. -/
def step (s : State ι) : Op ι → Option (State ι)
  | .defaultResult x => defaultResult s x
  | .resultOfValue x => (s.construct x .value).map fun s => s.setVar x (some (.result false))
  | .resultOfError x => (s.construct x .error).map fun s => s.setVar x (some (.result true))
  | .success x =>
    (defaultResult s x).bind fun s => (s.setVar x (some (.result false))).use x .value
  | .error x =>
    (defaultResult s x).bind fun s => (s.setVar x (some (.result true))).use x .error
  | .moveResult x y =>
    match s.vars y with
    | some (.result e) =>
      (s.use y (altOf e)).bind fun s => (s.construct x (altOf e)).map fun s => s.setVar x (some (.result e))
    | _ => none
  | .moveAssignResult x y =>
    if x = y then some s
    else
      match s.vars x, s.vars y with
      | some (.result e), some (.result e') =>
        (s.destroy x (altOf e)).bind fun s =>
          ((s.setVar x (some (.result e'))).use y (altOf e')).bind fun s => s.construct x (altOf e')
      | _, _ => none
  | .takeResult x => s.use x .value
  | .emptyOptional x => some (s.setVar x (some (.optional false)))
  | .optionalOfValue x => (s.construct x .value).map fun s => s.setVar x (some (.optional true))
  | .copyOptional x y =>
    match s.vars y with
    | some (.optional true) =>
      (s.use y .value).bind fun s => (s.construct x .value).map fun s => s.setVar x (some (.optional true))
    | _ => some (s.setVar x (some (.optional false)))
  | .moveOptional x y =>
    match s.vars y with
    | some (.optional true) =>
      -- the temporary `Storage` takes the value, and is assigned to the raw one
      ((s.setVar x (some (.optional true))).use y .value).bind fun s =>
        (s.use x .value).map fun s => s.setVar y (some (.optional false))
    | _ => some (s.setVar x (some (.optional false)))
  | .copyAssignOptional x y =>
    if x = y then some s
    else
      match s.vars x, s.vars y with
      | some (.optional true), some (.optional true) => (s.use y .value).bind fun s => s.use x .value
      | some (.optional false), some (.optional true) =>
        (s.use y .value).bind fun s => (s.construct x .value).map fun s => s.setVar x (some (.optional true))
      | some (.optional true), some (.optional false) =>
        (s.setVar x (some (.optional false))).destroy x .value
      | _, _ => some s
  | .moveAssignOptional x y =>
    if x = y then some s
    else
      match s.vars x, s.vars y with
      | some (.optional true), some (.optional true) =>
        (s.use y .value).bind fun s => (s.use x .value).map fun s => s.setVar y (some (.optional false))
      | some (.optional false), some (.optional true) =>
        (s.use y .value).bind fun s => (s.construct x .value).map fun s =>
          (s.setVar y (some (.optional false))).setVar x (some (.optional true))
      | some (.optional true), some (.optional false) =>
        (s.setVar x (some (.optional false))).destroy x .value
      | _, _ => some s
  | .assignValue x =>
    if s.vars x = some (.optional true) then s.use x .value
    else (s.construct x .value).map fun s => s.setVar x (some (.optional true))
  | .takeOptional x => some (s.setVar x (some (.optional false)))
  | .destruct x =>
    match s.vars x with
    | some (.result e) => (s.destroy x (altOf e)).map fun s => s.lose x
    | some (.optional true) => ((s.setVar x (some (.optional false))).destroy x .value).map fun s => s.lose x
    | _ => some (s.lose x)

/-- Is the variable a `Result`? -/
def IsResult (s : State ι) (x : ι) : Prop := s.vars x = some (.result true) ∨ s.vars x = some (.result false)

def IsOptional (s : State ι) (x : ι) : Prop := s.vars x = some (.optional true) ∨ s.vars x = some (.optional false)

/-- A variable is constructed where there is none, and used while it is there;
`Result::take` of an error does not return. -/
def Allowed (s : State ι) : Op ι → Prop
  | .defaultResult x | .resultOfValue x | .resultOfError x | .success x | .error x
  | .emptyOptional x | .optionalOfValue x => s.vars x = none
  | .moveResult x y => s.vars x = none ∧ IsResult s y
  | .moveAssignResult x y => IsResult s x ∧ IsResult s y
  | .takeResult x => s.vars x = some (.result false)
  | .copyOptional x y | .moveOptional x y => s.vars x = none ∧ IsOptional s y
  | .copyAssignOptional x y | .moveAssignOptional x y => IsOptional s x ∧ IsOptional s y
  | .assignValue x | .takeOptional x => IsOptional s x
  | .destruct x => s.vars x ≠ none

/-- No `Result::success`, and nothing is moved or taken out of a full `Optional`. -/
def SoundStep (s : State ι) : Op ι → Prop
  | .success _ => False
  | .moveOptional _ y => s.vars y ≠ some (.optional true)
  | .moveAssignOptional x y => x ≠ y → s.vars y ≠ some (.optional true)
  | .takeOptional x => s.vars x ≠ some (.optional true)
  | _ => True

/-- **The storage is exact**: each slot holds what the flag of its variable says,
and every object was destroyed once or is in one slot. -/
structure Exact (s : State ι) : Prop where
  holds : ∀ x, (s.slots.slot x).map Prod.snd = (s.vars x).bind Var.holds
  accounted : Accounted s.slots

/-! ### One variable at a time -/

/-- Exact, but for the variable `x`. -/
structure ExactBut (x : ι) (s : State ι) : Prop where
  holds : ∀ y, y ≠ x → (s.slots.slot y).map Prod.snd = (s.vars y).bind Var.holds
  accounted : Accounted s.slots

section Parts

variable {s s' : State ι} {x y : ι} {a : Alt} {o : Option Var}

omit [DecidableEq ι] in
theorem Exact.but (h : Exact s) (x : ι) : ExactBut x s := ⟨fun y _ => h.holds y, h.accounted⟩

theorem ExactBut.exact (h : ExactBut x s) (hx : (s.slots.slot x).map Prod.snd = (s.vars x).bind Var.holds) :
    Exact s := by
  refine ⟨fun y => ?_, h.accounted⟩
  by_cases hy : y = x
  · rw [hy, hx]
  · exact h.holds y hy

theorem ExactBut.setVar (h : ExactBut x s) (o : Option Var) : ExactBut x (s.setVar x o) := by
  refine ⟨fun y hy => ?_, h.accounted⟩
  simp only [State.setVar, Function.update_of_ne hy]
  exact h.holds y hy

/-- The flag of a variable with the right slot. -/
theorem ExactBut.setVar_exact (h : ExactBut x s) (hx : (s.slots.slot x).map Prod.snd = o.bind Var.holds) :
    Exact (s.setVar x o) :=
  (h.setVar o).exact (by simp only [State.setVar, Function.update_self]; exact hx)

/-- An object that is there can be used, and stays. -/
theorem use_eq (hx : (s.slots.slot x).map Prod.snd = some a) : s.use x a = some s := by
  obtain ⟨⟨id, a'⟩, hslot, rfl⟩ := Option.map_eq_some_iff.mp hx
  have hsame : s.slots.put x (some (id, a')) = s.slots := by
    rw [Slots.put, ← hslot, Function.update_eq_self]
  rw [State.use, modify_eq hslot (decide_eq_true rfl), id_eq, hsame]
  rfl

theorem construct_but (h : ExactBut x s) (hx : s.slots.slot x = none) (a : Alt) :
    ∃ s', s.construct x a = some s' ∧ s'.vars = s.vars ∧ (s'.slots.slot x).map Prod.snd = some a ∧
      ExactBut x s' := by
  refine ⟨{ s with slots := { s.slots.put x (some (s.slots.next, a)) with next := s.slots.next + 1 } },
    by rw [State.construct, construct_eq hx]; rfl, rfl, ?_, fun y hy => ?_,
    accounted_construct h.accounted hx a⟩
  · simp only [Slots.put_slot, Function.update_self]
    rfl
  · simp only [Slots.put_slot, Function.update_of_ne hy]
    exact h.holds y hy

theorem destroy_but (h : ExactBut x s) (hx : (s.slots.slot x).map Prod.snd = some a) :
    ∃ s', s.destroy x a = some s' ∧ s'.vars = s.vars ∧ s'.slots.slot x = none ∧ ExactBut x s' := by
  obtain ⟨⟨id, a'⟩, hslot, rfl⟩ := Option.map_eq_some_iff.mp hx
  refine ⟨{ s with slots := { s.slots.put x none with destroyed := id :: s.slots.destroyed } },
    by rw [State.destroy, destroy_eq hslot (decide_eq_true rfl)]; rfl, rfl, ?_, fun y hy => ?_,
    accounted_destroy h.accounted hslot⟩
  · simp only [Slots.put_slot, Function.update_self]
  · simp only [Slots.put_slot, Function.update_of_ne hy]
    exact h.holds y hy

/-- A variable whose slot is raw can go. -/
theorem lose_exact (h : ExactBut x s) (hx : s.slots.slot x = none) : Exact (s.lose x) := by
  have hsame : s.slots.put x none = s.slots := by rw [Slots.put, ← hx, Function.update_eq_self]
  rw [State.lose, hsame]
  exact h.setVar_exact (by rw [hx]; rfl)

omit [DecidableEq ι] in
theorem holds_alt (h : Exact s) {e : Bool} (hx : s.vars x = some (.result e)) :
    (s.slots.slot x).map Prod.snd = some (altOf e) := by
  rw [h.holds x, hx]
  cases e <;> rfl

omit [DecidableEq ι] in
theorem holds_value (h : Exact s) (hx : s.vars x = some (.optional true)) :
    (s.slots.slot x).map Prod.snd = some .value := by
  rw [h.holds x, hx]
  rfl

omit [DecidableEq ι] in
/-- The slot of a variable that is not there, or is empty. -/
theorem raw_of (h : Exact s) (hx : (s.vars x).bind Var.holds = none) : s.slots.slot x = none := by
  rw [← h.holds x, Option.map_eq_none_iff] at hx
  exact hx

omit [DecidableEq ι] in
theorem isResult_get (h : IsResult s x) : ∃ e, s.vars x = some (.result e) := by
  rcases h with h | h
  · exact ⟨true, h⟩
  · exact ⟨false, h⟩

/-- An object is constructed in a raw slot, and the flag set. -/
theorem construct_exact (h : Exact s) (hx : s.slots.slot x = none) {a : Alt} {v : Var}
    (hv : v.holds = some a) :
    ∃ s', (s.construct x a).map (fun s => s.setVar x (some v)) = some s' ∧ Exact s' := by
  obtain ⟨s1, hconstruct, -, hslot, hbut⟩ := construct_but (h.but x) hx a
  rw [hconstruct]
  exact ⟨_, rfl, hbut.setVar_exact (by rw [hslot]; exact hv.symm)⟩

/-- The step gets through, and the storage is exact after it. -/
def Keeps (s : State ι) (o : Op ι) : Prop := ∃ s', step s o = some s' ∧ Exact s'

theorem keeps_error (h : Exact s) (hx : s.vars x = none) : Keeps s (.error x) := by
  obtain ⟨s1, hconstruct, -, hslot, hbut⟩ := construct_but (h.but x) (raw_of h (by rw [hx]; rfl)) .error
  refine ⟨(s1.setVar x (some (.result true))).setVar x (some (.result true)), ?_,
    (hbut.setVar _).setVar_exact hslot⟩
  simp only [step, defaultResult, hconstruct, Option.map_some, Option.bind_some]
  exact use_eq hslot

theorem keeps_moveResult (h : Exact s) (hx : s.vars x = none) (hy : IsResult s y) :
    Keeps s (.moveResult x y) := by
  obtain ⟨e, hye⟩ := isResult_get hy
  obtain ⟨s', hs', hexact⟩ := construct_exact h (raw_of h (by rw [hx]; rfl))
    (show (Var.result e).holds = some (altOf e) by cases e <;> rfl)
  refine ⟨s', ?_, hexact⟩
  simp only [step, hye, use_eq (holds_alt h hye), Option.bind_some]
  exact hs'

theorem keeps_moveAssignResult (h : Exact s) (hx : IsResult s x) (hy : IsResult s y) :
    Keeps s (.moveAssignResult x y) := by
  by_cases hxy : x = y
  · exact ⟨s, if_pos hxy, h⟩
  · obtain ⟨e, hxe⟩ := isResult_get hx
    obtain ⟨e', hye⟩ := isResult_get hy
    obtain ⟨s1, hdestroy, hvars, hraw, hbut⟩ := destroy_but (h.but x) (holds_alt h hxe)
    have hyslot : ((s1.setVar x (some (.result e'))).slots.slot y).map Prod.snd = some (altOf e') := by
      refine (hbut.holds y (Ne.symm hxy)).trans ?_
      rw [hvars, hye]
      cases e' <;> rfl
    obtain ⟨s2, hconstruct, hvars2, hslot, hbut2⟩ :=
      construct_but (hbut.setVar (some (.result e'))) hraw (altOf e')
    refine ⟨s2, ?_, hbut2.exact ?_⟩
    · simp only [step, if_neg hxy, hxe, hye, hdestroy, Option.bind_some, use_eq hyslot]
      exact hconstruct
    · rw [hslot, hvars2]
      simp only [State.setVar, Function.update_self]
      cases e' <;> rfl

/-- An empty `Optional` becomes full. -/
theorem fill_exact (h : Exact s) (hx : (s.vars x).bind Var.holds = none) :
    ∃ s', (s.construct x .value).map (fun s => s.setVar x (some (.optional true))) = some s' ∧ Exact s' :=
  construct_exact h (raw_of h hx) rfl

/-- A full `Optional` is emptied. -/
theorem empty_exact (h : Exact s) (hx : s.vars x = some (.optional true)) :
    ∃ s', (s.setVar x (some (.optional false))).destroy x .value = some s' ∧
      s'.slots.slot x = none ∧ Exact s' := by
  have hslot : (s.slots.slot x).map Prod.snd = some .value := holds_value h hx
  obtain ⟨s1, hdestroy, hvars, hraw, hbut⟩ :=
    destroy_but ((h.but x).setVar (some (.optional false))) hslot
  refine ⟨s1, hdestroy, hraw, hbut.exact ?_⟩
  rw [hraw, hvars]
  simp only [State.setVar, Function.update_self]
  rfl

theorem keeps_copyOptional (h : Exact s) (hx : s.vars x = none) (hy : IsOptional s y) :
    Keeps s (.copyOptional x y) := by
  have hnone : (s.vars x).bind Var.holds = none := by rw [hx]; rfl
  rcases hy with hy | hy
  · obtain ⟨s', hs', hexact⟩ := fill_exact h hnone
    refine ⟨s', ?_, hexact⟩
    simp only [step, hy, use_eq (holds_value h hy), Option.bind_some]
    exact hs'
  · refine ⟨s.setVar x (some (.optional false)), by simp only [step, hy], (h.but x).setVar_exact ?_⟩
    rw [raw_of h hnone]
    rfl

theorem keeps_copyAssignOptional (h : Exact s) (hx : IsOptional s x) (hy : IsOptional s y) :
    Keeps s (.copyAssignOptional x y) := by
  by_cases hxy : x = y
  · exact ⟨s, if_pos hxy, h⟩
  rcases hx with hx | hx
  · rcases hy with hy | hy
    · refine ⟨s, ?_, h⟩
      simp only [step, if_neg hxy, hx, hy, use_eq (holds_value h hy), use_eq (holds_value h hx),
        Option.bind_some]
    · obtain ⟨s', hs', -, hexact⟩ := empty_exact h hx
      exact ⟨s', by simp only [step, if_neg hxy, hx, hy]; exact hs', hexact⟩
  · rcases hy with hy | hy
    · obtain ⟨s', hs', hexact⟩ := fill_exact h (x := x) (by rw [hx]; rfl)
      refine ⟨s', ?_, hexact⟩
      simp only [step, if_neg hxy, hx, hy, use_eq (holds_value h hy), Option.bind_some]
      exact hs'
    · exact ⟨s, by simp only [step, if_neg hxy, hx, hy], h⟩

theorem keeps_moveAssignOptional (h : Exact s) (hx : IsOptional s x) (hy : IsOptional s y)
    (hsound : x ≠ y → s.vars y ≠ some (.optional true)) : Keeps s (.moveAssignOptional x y) := by
  by_cases hxy : x = y
  · exact ⟨s, if_pos hxy, h⟩
  have hempty : s.vars y = some (.optional false) := hy.resolve_left (hsound hxy)
  rcases hx with hx | hx
  · obtain ⟨s', hs', -, hexact⟩ := empty_exact h hx
    exact ⟨s', by simp only [step, if_neg hxy, hx, hempty]; exact hs', hexact⟩
  · exact ⟨s, by simp only [step, if_neg hxy, hx, hempty], h⟩

theorem keeps_destruct (h : Exact s) (hx : s.vars x ≠ none) : Keeps s (.destruct x) := by
  cases hv : s.vars x with
  | none => exact absurd hv hx
  | some v =>
    cases v with
    | result e =>
      obtain ⟨s1, hdestroy, -, hraw, hbut⟩ := destroy_but (h.but x) (holds_alt h hv)
      exact ⟨s1.lose x, by simp only [step, hv, hdestroy, Option.map_some], lose_exact hbut hraw⟩
    | optional contain =>
      cases contain with
      | true =>
        obtain ⟨s1, hs1, hraw, hexact⟩ := empty_exact h hv
        exact ⟨s1.lose x, by simp only [step, hv, hs1, Option.map_some], lose_exact (hexact.but x) hraw⟩
      | false =>
        exact ⟨s.lose x, by simp only [step, hv], lose_exact (h.but x) (raw_of h (by rw [hv]; rfl))⟩

/-- **One operation** that is allowed and sound keeps the storage exact. -/
theorem step_exact (h : Exact s) {o : Op ι} (ho : Allowed s o) (hsound : SoundStep s o) : Keeps s o := by
  cases o with
  | defaultResult x => exact construct_exact h (raw_of h (by rw [show s.vars x = none from ho]; rfl)) rfl
  | resultOfValue x => exact construct_exact h (raw_of h (by rw [show s.vars x = none from ho]; rfl)) rfl
  | resultOfError x => exact construct_exact h (raw_of h (by rw [show s.vars x = none from ho]; rfl)) rfl
  | success x => exact hsound.elim
  | error x => exact keeps_error h ho
  | moveResult x y => exact keeps_moveResult h ho.1 ho.2
  | moveAssignResult x y => exact keeps_moveAssignResult h ho.1 ho.2
  | takeResult x => exact ⟨s, use_eq (holds_alt h ho), h⟩
  | emptyOptional x =>
    refine ⟨_, rfl, (h.but x).setVar_exact ?_⟩
    rw [raw_of h (by rw [show s.vars x = none from ho]; rfl)]
    rfl
  | optionalOfValue x => exact fill_exact h (by rw [show s.vars x = none from ho]; rfl)
  | copyOptional x y => exact keeps_copyOptional h ho.1 ho.2
  | moveOptional x y =>
    have hempty : s.vars y = some (.optional false) := ho.2.resolve_left hsound
    refine ⟨s.setVar x (some (.optional false)), by simp only [step, hempty], (h.but x).setVar_exact ?_⟩
    rw [raw_of h (by rw [ho.1]; rfl)]
    rfl
  | copyAssignOptional x y => exact keeps_copyAssignOptional h ho.1 ho.2
  | moveAssignOptional x y => exact keeps_moveAssignOptional h ho.1 ho.2 hsound
  | assignValue x =>
    rcases ho with hx | hx
    · exact ⟨s, by simp only [step, if_pos hx, use_eq (holds_value h hx)], h⟩
    · obtain ⟨s', hs', hexact⟩ := fill_exact h (x := x) (by rw [hx]; rfl)
      have hne : s.vars x ≠ some (.optional true) := by rw [hx]; decide
      exact ⟨s', by simp only [step, if_neg hne]; exact hs', hexact⟩
  | takeOptional x =>
    have hempty : s.vars x = some (.optional false) := ho.resolve_left hsound
    refine ⟨s.setVar x (some (.optional false)), rfl, (h.but x).setVar_exact ?_⟩
    rw [raw_of h (by rw [hempty]; rfl)]
    rfl
  | destruct x => exact keeps_destruct h ho

end Parts

/-- No variables. -/
def init : State ι := ⟨fun _ => none, ⟨fun _ => none, 0, []⟩⟩

omit [DecidableEq ι] in
theorem exact_init : Exact (init : State ι) := ⟨fun _ => rfl, accounted_empty⟩

/-- The step is allowed and sound. -/
def GoodStep (s : State ι) (o : Op ι) : Prop := Allowed s o ∧ SoundStep s o

/-- **Object lifetimes are exact** in every run of sound steps: each operation
gets through, and when all variables are gone every object was destroyed exactly
once. -/
theorem storage_exact {ops : List (Op ι)} (hops : Meets step GoodStep ops init) :
    ∃ s, run step ops init = some s ∧ Exact s ∧
      ((∀ x, s.vars x = none) → ∀ id, s.slots.destroyed.count id = if id < s.slots.next then 1 else 0) := by
  obtain ⟨s, hrun, hexact⟩ :=
    run_total_of_meets (fun _ _ hs ho => step_exact hs ho.1 ho.2) ops hops exact_init
  refine ⟨s, hrun, hexact, fun hgone => hexact.accounted.all_destroyed fun x => ?_⟩
  exact raw_of hexact (by rw [hgone x]; rfl)

section Decidable

variable (s : State ι)

instance (x : ι) : Decidable (IsResult s x) := inferInstanceAs (Decidable (_ ∨ _))

instance (x : ι) : Decidable (IsOptional s x) := inferInstanceAs (Decidable (_ ∨ _))

instance : ∀ o, Decidable (Allowed s o)
  | .defaultResult x | .resultOfValue x | .resultOfError x | .success x | .error x
  | .emptyOptional x | .optionalOfValue x => inferInstanceAs (Decidable (s.vars x = none))
  | .moveResult x y => inferInstanceAs (Decidable (s.vars x = none ∧ IsResult s y))
  | .moveAssignResult x y => inferInstanceAs (Decidable (IsResult s x ∧ IsResult s y))
  | .takeResult x => inferInstanceAs (Decidable (s.vars x = some (.result false)))
  | .copyOptional x y | .moveOptional x y => inferInstanceAs (Decidable (s.vars x = none ∧ IsOptional s y))
  | .copyAssignOptional x y | .moveAssignOptional x y =>
    inferInstanceAs (Decidable (IsOptional s x ∧ IsOptional s y))
  | .assignValue x | .takeOptional x => inferInstanceAs (Decidable (IsOptional s x))
  | .destruct x => inferInstanceAs (Decidable (s.vars x ≠ none))

instance : ∀ o, Decidable (SoundStep s o)
  | .success _ => inferInstanceAs (Decidable False)
  | .moveOptional _ y => inferInstanceAs (Decidable (s.vars y ≠ some (.optional true)))
  | .moveAssignOptional x y => inferInstanceAs (Decidable (x ≠ y → s.vars y ≠ some (.optional true)))
  | .takeOptional x => inferInstanceAs (Decidable (s.vars x ≠ some (.optional true)))
  | .defaultResult _ | .resultOfValue _ | .resultOfError _ | .error _ | .moveResult _ _
  | .moveAssignResult _ _ | .takeResult _ | .emptyOptional _ | .optionalOfValue _ | .copyOptional _ _
  | .copyAssignOptional _ _ | .assignValue _ | .destruct _ => inferInstanceAs (Decidable True)

instance (o : Op ι) : Decidable (GoodStep s o) := inferInstanceAs (Decidable (_ ∧ _))

end Decidable

/-- An error is overwritten by a value, and an `Optional` copied over an empty
one. -/
def overwriteError : List (Op ℕ) :=
  [.error 0, .resultOfValue 1, .moveAssignResult 0 1, .takeResult 0, .optionalOfValue 2, .emptyOptional 3,
    .copyAssignOptional 3 2, .destruct 0, .destruct 1, .destruct 2, .destruct 3]

theorem storage_exact_overwriteError : ∃ s, run step overwriteError init = some s ∧ Exact s ∧
    ((∀ x, s.vars x = none) → ∀ id, s.slots.destroyed.count id = if id < s.slots.next then 1 else 0) :=
  storage_exact (by decide)

/-- `Result::success` assigns to an error. -/
theorem success_assigns_error : Meets step Allowed [.success 0] (init : State ℕ) ∧
    run step [.success 0] (init : State ℕ) = none := by
  exact ⟨by decide, rfl⟩

end ResultOptional
end WingOS
