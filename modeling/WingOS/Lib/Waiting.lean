/-
# Waiting lines

What keeps a member of a first-in first-out line from waiting for ever. The
place of `x` in the line is the number of members ahead of it (`List.idxOf`).
Who leaves the line from ahead of `x` brings it forward by one
(`idxOf_eraseIdx_lt`), who leaves behind it or joins at the end does not change
its place, and a search from the front that `x` answers ends at `x` or ahead of
it (`findIdx?_le_idxOf`).

Along a run, a bound on the number of ticks that are left (`I n`) that every
step keeps and every tick lowers is met by the run itself: after as many ticks
the awaited thing has happened (`run_reaches`).

Key theorems: `idxOf_eraseIdx_le`, `idxOf_eraseIdx_lt`, `findIdx?_le_idxOf`,
`run_reaches`.
-/
import Mathlib.Data.List.Nodup
import Mathlib.Algebra.Order.Group.Nat
import WingOS.Lib.Run

namespace WingOS
namespace Lib

section Line

variable {α : Type*} [DecidableEq α] {l : List α} {x : α} {k : ℕ}

/-- Who leaves behind `x` does not change its place. -/
theorem idxOf_eraseIdx_of_gt (h : l.idxOf x < k) : (l.eraseIdx k).idxOf x = l.idxOf x := by
  induction l generalizing k with
  | nil => simp
  | cons y l ih =>
    obtain ⟨k, rfl⟩ := Nat.exists_eq_succ_of_ne_zero (Nat.ne_zero_of_lt h)
    by_cases hy : y = x
    · simp [hy]
    · rw [List.idxOf_cons_ne l hy] at h
      rw [List.eraseIdx_cons_succ, List.idxOf_cons_ne _ hy, List.idxOf_cons_ne _ hy, ih (Nat.lt_of_succ_lt_succ h)]

/-- Who leaves ahead of `x` brings it forward by one. -/
theorem idxOf_eraseIdx_of_lt (h : k < l.idxOf x) : (l.eraseIdx k).idxOf x + 1 = l.idxOf x := by
  induction l generalizing k with
  | nil => simp at h
  | cons y l ih =>
    have hy : y ≠ x := by
      rintro rfl
      simp at h
    rw [List.idxOf_cons_ne l hy] at h ⊢
    cases k with
    | zero => simp
    | succ k => simp [hy, ih (Nat.lt_of_succ_lt_succ h)]

/-- If `x` is there once, it is gone when it leaves. -/
theorem notMem_eraseIdx_idxOf (hl : l.count x ≤ 1) : x ∉ l.eraseIdx (l.idxOf x) := by
  rw [← List.erase_eq_eraseIdx_of_idxOf rfl, ← List.count_eq_zero, List.count_erase_self]
  omega

/-- Nobody who leaves puts `x` back. -/
theorem idxOf_eraseIdx_le (hl : l.count x ≤ 1) (hx : x ∈ l.eraseIdx k) :
    (l.eraseIdx k).idxOf x ≤ l.idxOf x := by
  rcases lt_trichotomy k (l.idxOf x) with hk | rfl | hk
  · have hstep := idxOf_eraseIdx_of_lt hk
    omega
  · exact absurd hx (notMem_eraseIdx_idxOf hl)
  · exact (idxOf_eraseIdx_of_gt hk).le

/-- `x` comes forward when one ahead of it leaves. -/
theorem idxOf_eraseIdx_lt (hl : l.count x ≤ 1) (hk : k ≤ l.idxOf x) (hx : x ∈ l.eraseIdx k) :
    (l.eraseIdx k).idxOf x < l.idxOf x := by
  rcases hk.lt_or_eq with hlt | rfl
  · have hstep := idxOf_eraseIdx_of_lt hlt
    omega
  · exact absurd hx (notMem_eraseIdx_idxOf hl)

/-- A search that `x` answers goes no further than `x`. -/
theorem findIdx?_le_idxOf {p : α → Bool} (hx : x ∈ l) (hp : p x = true) :
    ∃ k, l.findIdx? p = some k ∧ k ≤ l.idxOf x := by
  have hlt : l.idxOf x < l.length := List.idxOf_lt_length_iff.mpr hx
  have hfind : p (l[l.idxOf x]) = true := by rwa [List.getElem_idxOf hlt]
  have hle : l.findIdx p ≤ l.idxOf x := by
    by_contra hgt
    exact absurd hfind (by simpa using List.not_of_lt_findIdx (not_le.mp hgt))
  exact ⟨l.findIdx p, List.findIdx?_eq_some_of_exists ⟨x, hx, hp⟩, hle⟩

end Line

section Runs

variable {σ op : Type*} {step : σ → op → Option σ}

/-- **Bounded response.** `I n` says that what is awaited (`P`) is at most `n` ticks away: never none,
kept by every step, and one less after a tick. Then a run of `n` ticks comes to a state with `P`. -/
theorem run_reaches {I : ℕ → List op → σ → Prop} {P : σ → Prop} (tick : op → Bool)
    (hzero : ∀ os s, ¬ I 0 os s)
    (hstep : ∀ n o os s s', I n (o :: os) s → step s o = some s' → P s' ∨ I (n - (tick o).toNat) os s') :
    ∀ (os : List op) {n : ℕ} {s s' : σ}, I n os s → run step os s = some s' → n ≤ os.countP tick →
      ∃ pre post s₁, os = pre ++ post ∧ run step pre s = some s₁ ∧ P s₁
  | [], n, s, s', hI, _, hn => by
    rw [List.countP_nil, Nat.le_zero] at hn
    exact absurd (hn ▸ hI) (hzero [] s)
  | o :: os, n, s, s', hI, hr, hn => by
    obtain ⟨s1, h1, h2⟩ := run_cons_some hr
    rcases hstep n o os s s1 hI h1 with hP | hI1
    · refine ⟨[o], os, s1, rfl, ?_, hP⟩
      rw [run_cons, h1]
      rfl
    · have hleft : n - (tick o).toNat ≤ os.countP tick := by
        rw [List.countP_cons] at hn
        cases ho : tick o <;> simp [ho] at hn ⊢ <;> omega
      obtain ⟨pre, post, s₁, rfl, hpre, hP⟩ := run_reaches tick hzero hstep os hI1 h2 hleft
      refine ⟨o :: pre, post, s₁, rfl, ?_, hP⟩
      rw [run_cons, h1]
      exact hpre

end Runs

end Lib
end WingOS
