/-
# Packed structures

A packed structure has its fields one behind the other. A field is as far from the
start as the fields before it are long together; so two fields have no byte in
common, and a store into one leaves the others alone (`number_memcpy_of_ne`).

Key definitions: `Packed`, `Packed.offset`, `Packed.get`, `Packed.set`.
Key theorems: `Packed.disjoint`, `Packed.get_set`, `Packed.number_memcpy_of_ne`.
-/
import WingOS.Lib.Bytes
import Mathlib.Algebra.GroupWithZero.Nat

namespace WingOS
namespace Lib

/-- A packed structure: its fields in their order, and how many bytes each has. -/
structure Packed (F : Type*) where
  fields : List F
  size : F → ℕ

namespace Packed

variable {F : Type*} [DecidableEq F]

/-- How far a field of a list of fields is from its start. -/
def offsetIn (size : F → ℕ) (f : F) : List F → ℕ
  | [] => 0
  | g :: gs => if g = f then 0 else size g + offsetIn size f gs

def offset (p : Packed F) (f : F) : ℕ := offsetIn p.size f p.fields

def sizeof (p : Packed F) : ℕ := (p.fields.map p.size).sum

/-- The number in a field. -/
def get (p : Packed F) (m : Memory) (f : F) : ℕ := number m (p.offset f) (p.size f)

/-- A number is put into a field, as far as it fits. -/
def set (p : Packed F) (m : Memory) (f : F) (v : ℕ) : Memory := memcpy m (p.offset f) (byteOf v) 0 (p.size f)

theorem offsetIn_disjoint (size : F → ℕ) {f g : F} (hne : f ≠ g) : ∀ {fs : List F}, f ∈ fs → g ∈ fs →
    offsetIn size f fs + size f ≤ offsetIn size g fs ∨ offsetIn size g fs + size g ≤ offsetIn size f fs
  | x :: xs, hf, hg => by
    unfold offsetIn
    by_cases hxf : x = f
    · left
      rw [if_pos hxf, if_neg (hxf ▸ hne), hxf]
      omega
    by_cases hxg : x = g
    · right
      rw [if_pos hxg, if_neg hxf, hxg]
      omega
    rw [if_neg hxf, if_neg hxg]
    have ih := offsetIn_disjoint size hne ((List.mem_cons.mp hf).resolve_left (Ne.symm hxf))
      ((List.mem_cons.mp hg).resolve_left (Ne.symm hxg))
    omega

variable {p : Packed F} {f g : F}

/-- **Two fields** have no byte in common. -/
theorem disjoint (hne : f ≠ g) (hf : f ∈ p.fields) (hg : g ∈ p.fields) :
    p.offset f + p.size f ≤ p.offset g ∨ p.offset g + p.size g ≤ p.offset f := offsetIn_disjoint p.size hne hf hg

theorem get_set (p : Packed F) (m : Memory) (f : F) (v : ℕ) : p.get (p.set m f v) f = v % 256 ^ p.size f := by
  refine number_of_bytes fun i hi => ?_
  rw [set, memcpy_of_mem hi, Nat.zero_add]

/-- **A store into a field** leaves the numbers in another one alone. -/
theorem number_memcpy_of_ne (hne : f ≠ g) (hf : f ∈ p.fields) (hg : g ∈ p.fields) {m src : Memory} {at' off n x k : ℕ}
    (hstore : p.offset f ≤ at' ∧ at' + n ≤ p.offset f + p.size f)
    (hnumber : p.offset g ≤ x ∧ x + k ≤ p.offset g + p.size g) :
    number (memcpy m at' src off n) x k = number m x k := by
  have hapart := disjoint hne hf hg
  refine number_congr fun i hi => ?_
  rw [memcpy, if_neg (by omega)]

end Packed
end Lib
end WingOS
