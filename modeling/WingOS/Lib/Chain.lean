/-
# Chains of cells

Cells that point to the next one, in a memory that gives the cell at an address
(`cell`). A stretch of a chain is described by the addresses and values of its
cells (`Seg`); stretches that follow each other are one (`seg_append`), a
stretch only depends on its own cells (`seg_congr`), and storing a new pointer
in the last cell leads the stretch elsewhere (`seg_relink`).

Key definitions: `Node`, `Seg`, `addrs`.
Key theorems: `seg_append`, `seg_congr`, `seg_relink`.
-/
import Mathlib.Data.List.Nodup

namespace WingOS
namespace Lib

/-- A cell: its value, and the address of the next one. -/
structure Node (Addr α : Type*) where
  next : Option Addr
  data : α
  deriving DecidableEq

section Seg

variable {Addr α : Type*}

/-- From `p`, the cells `xs` lead to `q`. -/
def Seg (cell : Addr → Option (Node Addr α)) : Option Addr → List (Addr × α) → Option Addr → Prop
  | p, [], q => p = q
  | p, (a, v) :: xs, q => p = some a ∧ ∃ n, cell a = some ⟨n, v⟩ ∧ Seg cell n xs q

/-- The addresses of a stretch. -/
def addrs (xs : List (Addr × α)) : List Addr := xs.map Prod.fst

@[simp]
theorem addrs_nil : addrs ([] : List (Addr × α)) = [] := rfl

@[simp]
theorem addrs_cons (x : Addr × α) (xs : List (Addr × α)) : addrs (x :: xs) = x.1 :: addrs xs := rfl

@[simp]
theorem addrs_append (xs ys : List (Addr × α)) : addrs (xs ++ ys) = addrs xs ++ addrs ys :=
  List.map_append

variable {cell cell' : Addr → Option (Node Addr α)}

theorem seg_append : ∀ {xs ys : List (Addr × α)} {p q : Option Addr},
    Seg cell p (xs ++ ys) q ↔ ∃ r, Seg cell p xs r ∧ Seg cell r ys q
  | [], ys, p, q => by
    constructor
    · intro h
      exact ⟨p, rfl, h⟩
    · rintro ⟨r, rfl, h⟩
      exact h
  | (a, v) :: xs, ys, p, q => by
    constructor
    · rintro ⟨hp, n, hcell, h⟩
      obtain ⟨r, hxs, hys⟩ := seg_append.mp h
      exact ⟨r, ⟨hp, n, hcell, hxs⟩, hys⟩
    · rintro ⟨r, ⟨hp, n, hcell, hxs⟩, hys⟩
      exact ⟨hp, n, hcell, seg_append.mpr ⟨r, hxs, hys⟩⟩

theorem seg_singleton {a : Addr} {v : α} {p q : Option Addr} :
    Seg cell p [(a, v)] q ↔ p = some a ∧ cell a = some ⟨q, v⟩ := by
  constructor
  · rintro ⟨hp, n, hcell, rfl⟩
    exact ⟨hp, hcell⟩
  · rintro ⟨hp, hcell⟩
    exact ⟨hp, q, hcell, rfl⟩

/-- A stretch only depends on its own cells. -/
theorem seg_congr : ∀ {xs : List (Addr × α)} {p q : Option Addr}, (∀ a ∈ addrs xs, cell a = cell' a) →
    Seg cell p xs q → Seg cell' p xs q
  | [], _, _, _, h => h
  | (a, v) :: xs, p, q, hsame, h => by
    obtain ⟨hp, n, hcell, hrest⟩ := h
    refine ⟨hp, n, ?_, seg_congr (fun b hb => hsame b (List.mem_cons_of_mem a hb)) hrest⟩
    rw [← hsame a List.mem_cons_self, hcell]

/-- A store into the last cell of a stretch leads it elsewhere. -/
theorem seg_relink {xs : List (Addr × α)} {a : Addr} {v : α} {p q q' : Option Addr}
    (h : Seg cell p (xs ++ [(a, v)]) q) (ha : cell' a = some ⟨q', v⟩)
    (hsame : ∀ b ∈ addrs xs, cell b = cell' b) : Seg cell' p (xs ++ [(a, v)]) q' := by
  obtain ⟨r, hxs, hlast⟩ := seg_append.mp h
  exact seg_append.mpr ⟨r, seg_congr hsame hxs, seg_singleton.mpr ⟨(seg_singleton.mp hlast).1, ha⟩⟩

/-- The cells of a stretch are there. -/
theorem seg_cell : ∀ {xs : List (Addr × α)} {p q : Option Addr} {a : Addr} {v : α}, Seg cell p xs q →
    (a, v) ∈ xs → ∃ n, cell a = some ⟨n, v⟩
  | (b, w) :: xs, p, q, a, v, h, hmem => by
    obtain ⟨-, n, hcell, hrest⟩ := h
    rcases List.mem_cons.mp hmem with heq | hmem
    · obtain ⟨rfl, rfl⟩ := Prod.mk.inj heq
      exact ⟨n, hcell⟩
    · exact seg_cell hrest hmem

end Seg

end Lib
end WingOS
