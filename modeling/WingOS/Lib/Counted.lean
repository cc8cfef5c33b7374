/-
# Counted references

Objects with holders: `holds d` is the object that the holder `d` refers to.
A counter of an object is right if it is at least the number of its holders
(`Counted`); what is said is that no list of different holders is longer, so
nothing has to be finite. Adding, removing and exchanging a holder change the
counter as they should, and a counter at zero means that there is no holder
left (`Counted.holds_ne`).

Key definitions: `Counted`.
Key theorems: `Counted.add`, `Counted.remove`, `Counted.exchange`,
`Counted.holds_ne`.
-/
import Mathlib.Data.List.Nodup

namespace WingOS
namespace Lib

variable {D A : Type*}

/-- At most `n` holders hold `a`. -/
def Counted (holds : D → Option A) (a : A) (n : ℕ) : Prop :=
  ∀ L : List D, L.Nodup → (∀ d ∈ L, holds d = some a) → L.length ≤ n

variable {holds holds' : D → Option A} {a : A} {n : ℕ} {d d' : D}

theorem Counted.mono (h : Counted holds a n) (hsub : ∀ e, holds' e = some a → holds e = some a) :
    Counted holds' a n :=
  fun L hL hd => h L hL fun e he => hsub e (hd e he)

theorem Counted.remove (h : Counted holds a (n + 1)) (hd : holds d = some a)
    (hsub : ∀ e, holds' e = some a → holds e = some a ∧ e ≠ d) : Counted holds' a n := by
  intro L hL hLa
  have hnot : d ∉ L := fun hmem => (hsub d (hLa d hmem)).2 rfl
  have := h (d :: L) (List.nodup_cons.mpr ⟨hnot, hL⟩) fun e he => by
    rcases List.mem_cons.mp he with rfl | he
    · exact hd
    · exact (hsub e (hLa e he)).1
  rw [List.length_cons] at this
  exact Nat.le_of_succ_le_succ this

theorem Counted.add (h : Counted holds a n)
    (hsub : ∀ e, holds' e = some a → e ≠ d → holds e = some a) : Counted holds' a (n + 1) := by
  classical
  intro L hL hLa
  have hlen := h (L.erase d) (hL.erase d) fun e he => by
    obtain ⟨hne, hmem⟩ := hL.mem_erase_iff.mp he
    exact hsub e (hLa e hmem) hne
  have := List.le_length_erase (a := d) (l := L)
  omega

/-- The holder `d` gives its reference to `d'`. -/
theorem Counted.exchange (h : Counted holds a n) (d d' : D) (hd : holds d = some a)
    (hsub : ∀ e, holds' e = some a → e ≠ d' → holds e = some a ∧ e ≠ d) : Counted holds' a n := by
  classical
  intro L hL hLa
  by_cases hmem : d' ∈ L
  · have hnot : d ∉ L.erase d' := fun hmem' => by
      obtain ⟨hne, hmem''⟩ := hL.mem_erase_iff.mp hmem'
      exact (hsub d (hLa d hmem'') hne).2 rfl
    have hlen := h (d :: L.erase d') (List.nodup_cons.mpr ⟨hnot, hL.erase d'⟩) fun e he => by
      rcases List.mem_cons.mp he with rfl | he
      · exact hd
      · obtain ⟨hne, hmem'⟩ := hL.mem_erase_iff.mp he
        exact (hsub e (hLa e hmem') hne).1
    rw [List.length_cons, List.length_erase_of_mem hmem] at hlen
    have := List.length_pos_of_mem hmem
    omega
  · refine h L hL fun e he => (hsub e (hLa e he) ?_).1
    rintro rfl
    exact hmem he

theorem Counted.pos (h : Counted holds a n) (hd : holds d = some a) : ∃ m, n = m + 1 := by
  have := h [d] (List.nodup_singleton d) (by simpa using hd)
  rw [List.length_singleton] at this
  exact ⟨n - 1, by omega⟩

theorem Counted.holds_ne (h : Counted holds a 0) (d : D) : holds d ≠ some a := by
  intro hd
  obtain ⟨m, hm⟩ := h.pos hd
  omega

end Lib
end WingOS
