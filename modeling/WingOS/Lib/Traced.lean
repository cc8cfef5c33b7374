/-
# Programs that leave a trace

A program works on a state, leaves a trace of what it does and may stop before
its end. A program that was stopped has its state and its trace too.

`Honest` is what a program may do from a state: each entry of its trace is fine
in that state, or it can be excused because the program ends with a refusal and
has not changed the state. It is proved along the program, as long as the parts
before the last one only read (`honest_bind`).

Key definitions: `Traced`, `Reads`, `Honest`.
Key theorems: `reads_bind`, `honest_bind`.
-/
import Mathlib.Data.List.Basic

namespace WingOS
namespace Lib

structure Ran (σ ε τ α : Type) where
  result : Except τ α
  trace : List ε
  state : σ

def Traced (σ ε τ α : Type) : Type := σ → Ran σ ε τ α

namespace Traced

variable {σ ε τ α β : Type}

def bind (p : Traced σ ε τ α) (f : α → Traced σ ε τ β) : Traced σ ε τ β := fun s =>
  match (p s).result with
  | .error t => { result := .error t, trace := (p s).trace, state := (p s).state }
  | .ok a =>
    let r := f a (p s).state
    { result := r.result, trace := (p s).trace ++ r.trace, state := r.state }

instance : Monad (Traced σ ε τ) where
  pure a := fun s => { result := .ok a, trace := [], state := s }
  bind := bind

/-- An entry of the trace. -/
def emit (e : ε) : Traced σ ε τ Unit := fun s => { result := .ok (), trace := [e], state := s }

def stop (t : τ) : Traced σ ε τ α := fun s => { result := .error t, trace := [], state := s }

/-- A value that depends on the state. -/
def reading (f : σ → Except τ α) : Traced σ ε τ α := fun s => { result := f s, trace := [], state := s }

/-- A change of the state, of which the trace has nothing. -/
def effect (f : σ → Except τ α × σ) : Traced σ ε τ α := fun s =>
  { result := (f s).1, trace := [], state := (f s).2 }

/-- The program does not change the state. -/
def Reads (p : Traced σ ε τ α) : Prop := ∀ s, (p s).state = s

theorem reads_pure (a : α) : Reads (pure a : Traced σ ε τ α) := fun _ => rfl

theorem reads_emit (e : ε) : Reads (emit e : Traced σ ε τ Unit) := fun _ => rfl

theorem reads_stop (t : τ) : Reads (stop t : Traced σ ε τ α) := fun _ => rfl

theorem reads_reading (f : σ → Except τ α) : Reads (reading f : Traced σ ε τ α) := fun _ => rfl

variable {p : Traced σ ε τ α} {f : α → Traced σ ε τ β} {s : σ}

theorem bind_error {t : τ} (h : (p s).result = .error t) :
    (p >>= f) s = { result := .error t, trace := (p s).trace, state := (p s).state } := by
  change bind p f s = _
  simp only [bind, h]

theorem bind_ok {a : α} (h : (p s).result = .ok a) :
    (p >>= f) s =
      { result := (f a (p s).state).result
        trace := (p s).trace ++ (f a (p s).state).trace
        state := (f a (p s).state).state } := by
  change bind p f s = _
  simp only [bind, h]

@[simp] theorem pure_apply (a : α) (s : σ) :
    (pure a : Traced σ ε τ α) s = { result := .ok a, trace := [], state := s } := rfl

@[simp] theorem emit_apply (e : ε) (s : σ) :
    (emit e : Traced σ ε τ Unit) s = { result := .ok (), trace := [e], state := s } := rfl

@[simp] theorem stop_apply (t : τ) (s : σ) :
    (stop t : Traced σ ε τ α) s = { result := .error t, trace := [], state := s } := rfl

@[simp] theorem reading_apply (g : σ → Except τ α) (s : σ) :
    (reading g : Traced σ ε τ α) s = { result := g s, trace := [], state := s } := rfl

@[simp] theorem effect_apply (g : σ → Except τ α × σ) (s : σ) :
    (effect g : Traced σ ε τ α) s = { result := (g s).1, trace := [], state := (g s).2 } := rfl

@[simp] theorem emit_bind (e : ε) (g : Unit → Traced σ ε τ β) (s : σ) :
    (emit e >>= g) s =
      { result := (g () s).result, trace := e :: (g () s).trace, state := (g () s).state } := rfl

theorem reads_bind (hp : Reads p) (hf : ∀ a, Reads (f a)) : Reads (p >>= f) := by
  intro s
  cases h : (p s).result with
  | error t => rw [bind_error h, hp s]
  | ok a => rw [bind_ok h, hf a, hp s]

/-- All entries of the trace are as `Q` says. -/
def Only (Q : ε → Prop) (p : Traced σ ε τ α) : Prop := ∀ s, ∀ e ∈ (p s).trace, Q e

variable {Q : ε → Prop}

theorem only_pure (a : α) : Only Q (pure a : Traced σ ε τ α) := nofun

theorem only_stop (t : τ) : Only Q (stop t : Traced σ ε τ α) := nofun

theorem only_reading (g : σ → Except τ α) : Only Q (reading g : Traced σ ε τ α) := nofun

theorem only_effect (g : σ → Except τ α × σ) : Only Q (effect g : Traced σ ε τ α) := nofun

theorem only_emit {e : ε} (he : Q e) : Only Q (emit e : Traced σ ε τ Unit) := by
  intro s e' he'
  rw [List.mem_singleton.mp he']
  exact he

theorem only_bind (hp : Only Q p) (hf : ∀ a, Only Q (f a)) : Only Q (p >>= f) := by
  intro s e he
  cases h : (p s).result with
  | error t =>
    rw [bind_error h] at he
    exact hp s e he
  | ok a =>
    rw [bind_ok h] at he
    exact (List.mem_append.mp he).elim (hp s e) (hf a _ e)

/-- Each entry of the trace is fine, or excused by a refusal without effect. -/
def Honest (fine : σ → ε → Prop) (excused : ε → Prop) (refusal : τ → Prop) (p : Traced σ ε τ α)
    (s : σ) : Prop :=
  ∀ e ∈ (p s).trace, fine s e ∨
    (excused e ∧ (∃ t, (p s).result = .error t ∧ refusal t) ∧ (p s).state = s)

variable {fine : σ → ε → Prop} {excused : ε → Prop} {refusal : τ → Prop}

theorem honest_of_only (h : Only Q p) (hQ : ∀ e, Q e → fine s e) :
    Honest fine excused refusal p s := fun e he => .inl (hQ e (h s e he))

theorem honest_emit {e : ε} (he : fine s e) :
    Honest fine excused refusal (emit e : Traced σ ε τ Unit) s := by
  intro e' he'
  rw [List.mem_singleton.mp he']
  exact .inl he

/-- **Sequencing.** The first part only reads, so its refusals leave the state
as it was, and the second part starts from the same state. -/
theorem honest_bind (hread : Reads p) (hp : Honest fine excused refusal p s)
    (hf : ∀ a, (p s).result = .ok a → Honest fine excused refusal (f a) s) :
    Honest fine excused refusal (p >>= f) s := by
  intro e he
  cases h : (p s).result with
  | error t =>
    rw [bind_error h] at he ⊢
    apply (hp e he).imp id
    intro ⟨hexcused, ⟨t', ht', hrefusal⟩, hstate⟩
    rw [h, Except.error.injEq] at ht'
    exact ⟨hexcused, ⟨t, rfl, ht' ▸ hrefusal⟩, hstate⟩
  | ok a =>
    rw [bind_ok h] at he ⊢
    rw [hread s] at he ⊢
    apply (List.mem_append.mp he).elim
    · intro hpe
      apply (hp e hpe).imp id
      -- a part that went on was not refused
      intro ⟨_, ⟨t, ht, _⟩, _⟩
      rw [h] at ht
      cases ht
    · intro hfe
      exact hf a h e hfe

theorem honest_bind_iff (hread : Reads p) (hp : Honest fine excused refusal p s) :
    Honest fine excused refusal (p >>= f) s ↔
      ∀ a, (p s).result = .ok a → Honest fine excused refusal (f a) s := by
  refine ⟨fun h a ha e he => ?_, honest_bind hread hp⟩
  have hbind := h e
  rw [bind_ok ha, hread s] at hbind
  exact hbind (List.mem_append_right _ he)

end Traced
end Lib
end WingOS
