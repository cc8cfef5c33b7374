/-
# Programs that look at bytes

A program that reads a memory byte by byte, and may go on in a way that depends on
what it saw (`Look`). It has a result in each memory, and places that it looked at
there. Where two memories agree on the places looked at in one of them, it does the
same in both (`run_congr`).

What holds of the result, and that nothing else is looked at than a stretch of the memory,
goes from the parts of a program to the whole (`Gives`).

Key definitions: `Look`, `Look.run`, `Look.places`, `Look.word`, `Look.Gives`.
Key theorems: `run_word`, `places_word`, `run_congr`, `run_congr_below`, `gives_bind`.
-/
import WingOS.Lib.Bytes

namespace WingOS
namespace Lib

inductive Look (α : Type) where
  | done (a : α) : Look α
  | byte (place : ℕ) (next : BitVec 8 → Look α) : Look α

namespace Look

variable {α β : Type}

def bind : Look α → (α → Look β) → Look β
  | done a, f => f a
  | byte place next, f => byte place fun c => (next c).bind f

instance : Monad Look where
  pure := done
  bind := bind

/-- The result in the memory `b`. -/
def run (b : Memory) : Look α → α
  | done a => a
  | byte place next => (next (b place)).run b

/-- The places looked at in the memory `b`. -/
def places (b : Memory) : Look α → List ℕ
  | done _ => []
  | byte place next => place :: (next (b place)).places b

/-- A number of `n` bytes. -/
def word (place : ℕ) : (n : ℕ) → Look ℕ
  | 0 => done 0
  | n + 1 => do
    let low ← word place n
    byte (place + n) fun c => done (low + 256 ^ n * c.toNat)

variable {b b' : Memory} {l : Look α}

@[simp]
theorem run_pure (a : α) : (pure a : Look α).run b = a := rfl

@[simp]
theorem places_pure (a : α) : (pure a : Look α).places b = [] := rfl

@[simp]
theorem run_bind (f : α → Look β) : (l >>= f).run b = (f (l.run b)).run b := by
  change (l.bind f).run b = _
  induction l with
  | done a => rfl
  | byte place next ih => exact ih (b place)

@[simp]
theorem places_bind (f : α → Look β) : (l >>= f).places b = l.places b ++ (f (l.run b)).places b := by
  change (l.bind f).places b = _
  induction l with
  | done a => rfl
  | byte place next ih => exact congrArg (place :: ·) (ih (b place))

@[simp]
theorem run_word (place n : ℕ) : (word place n).run b = number b place n := by
  induction n with
  | zero => rfl
  | succ n ih =>
    rw [word, run_bind, ih]
    rfl

@[simp]
theorem places_word (place n : ℕ) : (word place n).places b = List.range' place n := by
  induction n with
  | zero => rfl
  | succ n ih =>
    rw [word, places_bind, ih, List.range'_concat, Nat.one_mul]
    rfl

/-- What is not looked at does not matter. -/
theorem run_congr (h : ∀ x ∈ l.places b, b' x = b x) : l.run b' = l.run b ∧ l.places b' = l.places b := by
  induction l with
  | done a => exact ⟨rfl, rfl⟩
  | byte place next ih =>
    obtain ⟨hplace, hnext⟩ := List.forall_mem_cons.mp h
    rw [run, run, places, places, hplace]
    obtain ⟨hrun, hplaces⟩ := ih (b place) hnext
    exact ⟨hrun, congrArg (place :: ·) hplaces⟩

/-- Two memories that agree below a bound. -/
theorem run_congr_below {bound : ℕ} (hb : ∀ x < bound, b' x = b x) (hl : ∀ x ∈ l.places b, x < bound) :
    l.run b' = l.run b ∧ l.places b' = l.places b :=
  run_congr fun x hx => hb x (hl x hx)

/-- Only places below `bound` are looked at, and the result satisfies `P`. -/
structure Gives (b : Memory) (bound : ℕ) (P : α → Prop) (l : Look α) : Prop where
  below : ∀ x ∈ l.places b, x < bound
  result : P (l.run b)

variable {bound : ℕ} {P Q : α → Prop}

theorem gives_pure {a : α} (h : P a) : Gives b bound P (pure a) := ⟨fun _ hx => absurd hx List.not_mem_nil, h⟩

theorem Gives.imp (h : Gives b bound P l) (hPQ : ∀ a, P a → Q a) : Gives b bound Q l := ⟨h.below, hPQ _ h.result⟩

theorem gives_byte {place : ℕ} {next : BitVec 8 → Look α} (hplace : place < bound)
    (h : Gives b bound P (next (b place))) : Gives b bound P (.byte place next) :=
  ⟨List.forall_mem_cons.mpr ⟨hplace, h.below⟩, h.result⟩

theorem gives_bind {R : β → Prop} {f : α → Look β} (h : Gives b bound P l) (hf : ∀ a, P a → Gives b bound R (f a)) :
    Gives b bound R (l >>= f) := by
  have hrest := hf (l.run b) h.result
  constructor
  · intro x hx
    rw [places_bind, List.mem_append] at hx
    exact hx.elim (h.below x) (hrest.below x)
  · rw [run_bind]
    exact hrest.result

end Look
end Lib
end WingOS
