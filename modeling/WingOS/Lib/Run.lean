/-
# Runs of a step function

A system is a step function `step : σ → op → Option σ`: what an operation
makes of a state, `none` when the operation stops the system. A run is a list
of operations, carried out one after the other (`run`). An invariant is proved
for one step and holds along every run (`run_invariant`); where the step needs
a condition on the state it starts from, `Meets` says that every step of a run
meets it (`run_invariant_of_meets`).

Key definitions: `run`, `Meets`.
Key theorems: `run_invariant`, `run_invariant_of_meets`, `meets_of_invariant`,
`run_simulates`, `run_refines_of_meets`, `run_restrict`, `run_guarded`, `run_range`, `invariant_iff_meets`.
-/
import Mathlib.Data.List.Basic

namespace WingOS
namespace Lib

variable {σ op : Type*} (step : σ → op → Option σ)

/-- The state a list of operations leads to. -/
def run : List op → σ → Option σ
  | [], s => some s
  | o :: os, s => (step s o).bind (run os)

/-- Every step of the run `os` from `s` meets `C` in the state it starts from. -/
def Meets (C : σ → op → Prop) : List op → σ → Prop
  | [], _ => True
  | o :: os, s => C s o ∧ ∀ s', step s o = some s' → Meets C os s'

instance decidableMeets (C : σ → op → Prop) [∀ s o, Decidable (C s o)] :
    ∀ (os : List op) (s : σ), Decidable (Meets step C os s)
  | [], _ => inferInstanceAs (Decidable True)
  | o :: os, s =>
    have : DecidablePred fun s' => Meets step C os s' := decidableMeets C os
    inferInstanceAs (Decidable (C s o ∧ ∀ s' ∈ step s o, Meets step C os s'))

@[simp]
theorem run_nil (s : σ) : run step [] s = some s := rfl

theorem run_cons (o : op) (os : List op) (s : σ) :
    run step (o :: os) s = (step s o).bind (run step os) := rfl

/-- A run of steps that can always be taken. -/
theorem run_some (f : σ → op → σ) : ∀ (os : List op) (s : σ), run (fun s o => some (f s o)) os s = some (os.foldl f s)
  | [], _ => rfl
  | o :: os, s => run_some f os (f s o)

variable {step}

/-- A run goes on where another one ends. -/
theorem run_append : ∀ (os os' : List op) (s : σ), run step (os ++ os') s = (run step os s).bind (run step os')
  | [], _, _ => rfl
  | o :: os, os', s => by
    rw [List.cons_append, run_cons, run_cons, Option.bind_assoc]
    exact congrArg _ (funext fun s' => run_append os os' s')

/-- The last step of a run over a first stretch of the numbers. -/
theorem run_range_succ {step : σ → ℕ → Option σ} {n : ℕ} {s s' : σ} (h : run step (List.range (n + 1)) s = some s') :
    ∃ s₁, run step (List.range n) s = some s₁ ∧ step s₁ n = some s' := by
  rw [List.range_succ, run_append, Option.bind_eq_some_iff] at h
  obtain ⟨s₁, h₁, h₂⟩ := h
  obtain ⟨s₂, hlast, hnil⟩ := Option.bind_eq_some_iff.mp h₂
  exact ⟨s₁, h₁, hlast.trans hnil⟩

/-- A run that gets through has come to each number on the way. -/
theorem run_range_le {step : σ → ℕ → Option σ} {i n : ℕ} (hi : i ≤ n) {s s' : σ} (h : run step (List.range n) s = some s') :
    ∃ s₁, run step (List.range i) s = some s₁ := by
  obtain ⟨k, rfl⟩ := Nat.exists_eq_add_of_le hi
  rw [List.range_add, run_append, Option.bind_eq_some_iff] at h
  obtain ⟨s₁, h₁, -⟩ := h
  exact ⟨s₁, h₁⟩

/-- The first step of a run that gets through. -/
theorem run_cons_some {o : op} {os : List op} {s s' : σ} (h : run step (o :: os) s = some s') :
    ∃ s1, step s o = some s1 ∧ run step os s1 = some s' := by
  rw [run_cons, Option.bind_eq_some_iff] at h
  exact h

/-- **Invariants, with a condition.** What each step that meets `C` keeps
holds after every run whose steps meet `C`. -/
theorem run_invariant_of_meets {C : σ → op → Prop} {P : σ → Prop}
    (hstep : ∀ s o s', P s → C s o → step s o = some s' → P s') :
    ∀ (os : List op) {s s' : σ}, Meets step C os s → P s → run step os s = some s' → P s'
  | [], _, _, _, hP, h => by
    rw [run_nil, Option.some.injEq] at h
    exact h ▸ hP
  | o :: os, s, s', hC, hP, h => by
    obtain ⟨s1, h1, h2⟩ := run_cons_some h
    exact run_invariant_of_meets hstep os (hC.2 s1 h1) (hstep s o s1 hP hC.1 h1) h2

theorem meets_true : ∀ (os : List op) (s : σ), Meets step (fun _ _ => True) os s
  | [], _ => trivial
  | _ :: os, _ => ⟨trivial, fun s' _ => meets_true os s'⟩

theorem meets_congr {C D : σ → op → Prop} (h : ∀ s o, C s o ↔ D s o) :
    ∀ (os : List op) (s : σ), Meets step C os s ↔ Meets step D os s
  | [], _ => Iff.rfl
  | o :: os, s => and_congr (h s o) (forall₂_congr fun s' _ => meets_congr h os s')

/-- Conditions that say the same in the states an invariant allows, where the
steps that meet them keep it. -/
theorem meets_congr_of_invariant {C D : σ → op → Prop} {P : σ → Prop}
    (h : ∀ s o, P s → (C s o ↔ D s o))
    (hstep : ∀ s o s', P s → D s o → step s o = some s' → P s') :
    ∀ (os : List op) {s : σ}, P s → (Meets step C os s ↔ Meets step D os s)
  | [], _, _ => Iff.rfl
  | o :: os, s, hP => by
    have hhead : C s o ↔ D s o := h s o hP
    constructor
    · intro ⟨hC, hrest⟩
      have hD := hhead.mp hC
      exact ⟨hD, fun s' hs' =>
        (meets_congr_of_invariant h hstep os (hstep s o s' hP hD hs')).mp (hrest s' hs')⟩
    · intro ⟨hD, hrest⟩
      exact ⟨hhead.mpr hD, fun s' hs' =>
        (meets_congr_of_invariant h hstep os (hstep s o s' hP hD hs')).mpr (hrest s' hs')⟩

/-- **Simulation.** A run of the one system is matched, step by step, by a run
of the other. -/
theorem run_simulates {τ : Type*} {step' : τ → op → Option τ} {R : σ → τ → Prop}
    (hstep : ∀ s o s' t, R s t → step s o = some s' → ∃ t', step' t o = some t' ∧ R s' t') :
    ∀ (os : List op) {s s' : σ} {t : τ}, R s t → run step os s = some s' →
      ∃ t', run step' os t = some t' ∧ R s' t'
  | [], s, s', t, hR, h => by
    rw [run_nil, Option.some.injEq] at h
    exact ⟨t, rfl, h ▸ hR⟩
  | o :: os, s, s', t, hR, h => by
    obtain ⟨s1, h1, h2⟩ := run_cons_some h
    obtain ⟨t1, ht1, hR1⟩ := hstep s o s1 t hR h1
    obtain ⟨t', ht', hR'⟩ := run_simulates hstep os hR1 h2
    refine ⟨t', ?_, hR'⟩
    rw [run_cons, ht1]
    exact ht'

/-- **Refinement, with a condition.** A run of the abstract system is carried out
by the other one, if its steps meet `C`. -/
theorem run_refines_of_meets {τ : Type*} {step' : τ → op → Option τ} {C : σ → op → Prop} {R : σ → τ → Prop}
    (hstep : ∀ s o t t', R s t → C s o → step' t o = some t' → ∃ s', step s o = some s' ∧ R s' t') :
    ∀ (os : List op) {s : σ} {t t' : τ}, R s t → Meets step C os s → run step' os t = some t' →
      ∃ s', run step os s = some s' ∧ R s' t'
  | [], s, t, t', hR, _, h => by
    rw [run_nil, Option.some.injEq] at h
    exact ⟨s, rfl, h ▸ hR⟩
  | o :: os, s, t, t', hR, hC, h => by
    obtain ⟨t1, ht1, ht⟩ := run_cons_some h
    obtain ⟨s1, hs1, hR1⟩ := hstep s o t t1 hR hC.1 ht1
    obtain ⟨s', hs, hR'⟩ := run_refines_of_meets hstep os hR1 (hC.2 s1 hs1) ht
    refine ⟨s', ?_, hR'⟩
    rw [run_cons, hs1]
    exact hs

/-- A run whose steps all meet `C` gets through, if every such step does. -/
theorem run_total_of_meets {C : σ → op → Prop} {P : σ → Prop}
    (hstep : ∀ s o, P s → C s o → ∃ s', step s o = some s' ∧ P s') :
    ∀ (os : List op) {s : σ}, Meets step C os s → P s → ∃ s', run step os s = some s' ∧ P s'
  | [], s, _, hP => ⟨s, rfl, hP⟩
  | o :: os, s, hC, hP => by
    obtain ⟨s1, h1, hP1⟩ := hstep s o hP hC.1
    obtain ⟨s', h2, hP'⟩ := run_total_of_meets hstep os (hC.2 s1 h1) hP1
    refine ⟨s', ?_, hP'⟩
    rw [run_cons, h1]
    exact h2

/-- **Restriction.** A system that does what another one does where `C` holds, and
stops elsewhere, has the runs of the other one whose steps all meet `C`. -/
theorem run_restrict {step' : σ → op → Option σ} {C : σ → op → Prop}
    (hsome : ∀ s o, C s o → step' s o = step s o) (hnone : ∀ s o, ¬ C s o → step' s o = none) :
    ∀ (os : List op) {s s' : σ},
      run step' os s = some s' ↔ Meets step' C os s ∧ run step os s = some s'
  | [], _, _ => ⟨fun h => ⟨trivial, h⟩, fun h => h.2⟩
  | o :: os, s, s' => by
    constructor
    · intro h
      obtain ⟨s₁, h₁, hrest⟩ := run_cons_some h
      obtain ⟨hmeets, hrun⟩ := (run_restrict hsome hnone os).mp hrest
      have hC : C s o := by
        by_contra hC
        rw [hnone s o hC] at h₁
        cases h₁
      refine ⟨⟨hC, fun s₂ h₂ => ?_⟩, ?_⟩
      · rw [h₁, Option.some.injEq] at h₂
        exact h₂ ▸ hmeets
      · rw [run_cons, ← hsome s o hC, h₁]
        exact hrun
    · rintro ⟨⟨hC, hmeets⟩, h⟩
      obtain ⟨s₁, h₁, hrest⟩ := run_cons_some h
      rw [← hsome s o hC] at h₁
      rw [run_cons, h₁]
      exact (run_restrict hsome hnone os).mpr ⟨hmeets s₁ h₁, hrest⟩

/-- **A counted loop.** What the pass `j` makes of `P j` is there after the
last one. -/
theorem run_range {step : σ → ℕ → Option σ} {P : ℕ → σ → Prop} :
    ∀ (n i : ℕ) {s : σ},
      (∀ j s, i ≤ j → j < i + n → P j s → ∃ s', step s j = some s' ∧ P (j + 1) s') → P i s →
      ∃ s', run step (List.range' i n) s = some s' ∧ P (i + n) s'
  | 0, i, s, _, hP => ⟨s, rfl, hP⟩
  | n + 1, i, s, hstep, hP => by
    obtain ⟨s1, h1, hP1⟩ := hstep i s (Nat.le_refl i) (by omega) hP
    obtain ⟨s', h', hP'⟩ := run_range n (i + 1) (fun j s hij hj => hstep j s (by omega) (by omega)) hP1
    refine ⟨s', ?_, by rw [show i + (n + 1) = i + 1 + n by omega]; exact hP'⟩
    rw [List.range'_succ, run_cons, h1]
    exact h'

/-- **Invariants.** What each step keeps holds after every run. -/
theorem run_invariant {P : σ → Prop} (hstep : ∀ s o s', P s → step s o = some s' → P s')
    {os : List op} {s s' : σ} (hP : P s) (h : run step os s = some s') : P s' :=
  run_invariant_of_meets (fun s o s' hP _ => hstep s o s' hP) os (meets_true os s) hP h

theorem guard_of_foldl {τ : Type*} {next : τ → op → τ} {G : τ → Prop} (hback : ∀ t o, G (next t o) → G t) :
    ∀ (os : List op) {t : τ}, G (os.foldl next t) → G t
  | [], _, h => h
  | o :: os, t, h => hback t o (guard_of_foldl hback os h)

/-- **Guarded runs.** A system that does what a total one does (`next`), as long as
`G` holds, which stays false once it is, gets through exactly if `G` holds at the end. -/
theorem run_guarded {τ : Type*} {next : τ → op → τ} {E : τ → σ} {G : τ → Prop} [DecidablePred G]
    (hstep : ∀ t o, G t → step (E t) o = if G (next t o) then some (E (next t o)) else none)
    (hback : ∀ t o, G (next t o) → G t) :
    ∀ (os : List op) {t : τ}, G t →
      run step os (E t) = if G (os.foldl next t) then some (E (os.foldl next t)) else none
  | [], t, h => by rw [run_nil, List.foldl_nil, if_pos h]
  | o :: os, t, h => by
    rw [run_cons, hstep t o h, List.foldl_cons]
    by_cases hnext : G (next t o)
    · rw [if_pos hnext]
      exact run_guarded hstep hback os hnext
    · rw [if_neg hnext, if_neg fun hend => hnext (guard_of_foldl hback os hend)]
      rfl

/-- What each step gives, in the states that an invariant allows. -/
theorem meets_of_invariant {C D : σ → op → Prop} {P : σ → Prop} (hgives : ∀ s o, P s → C s o → D s o)
    (hstep : ∀ s o s', P s → C s o → step s o = some s' → P s') :
    ∀ (os : List op) {s : σ}, P s → Meets step C os s → Meets step D os s
  | [], _, _, _ => trivial
  | o :: os, s, hP, hC =>
    ⟨hgives s o hP hC.1, fun s' hs => meets_of_invariant hgives hstep os (hstep s o s' hP hC.1 hs) (hC.2 s' hs)⟩

/-- **Exact conditions.** Where a step keeps an invariant exactly if it meets `C`, all states of a run have the
invariant exactly if all steps of the run meet `C`. -/
theorem invariant_iff_meets {C : σ → op → Prop} {P : σ → Prop}
    (hstep : ∀ s o s', P s → step s o = some s' → (P s' ↔ C s o)) :
    ∀ (os : List op) {s s' : σ}, P s → run step os s = some s' →
      ((∀ os', os' <+: os → ∀ s₁, run step os' s = some s₁ → P s₁) ↔ Meets step C os s)
  | [], s, s', hP, _ => by
    refine iff_of_true (fun os' hos' s₁ h => ?_) trivial
    rw [List.prefix_nil.mp hos', run_nil, Option.some.injEq] at h
    exact h ▸ hP
  | o :: os, s, s', hP, h => by
    obtain ⟨s₁, h₁, hrest⟩ := run_cons_some h
    constructor
    · intro hall
      have hP₁ : P s₁ := hall [o] (List.prefix_append [o] os) s₁ (by rw [run_cons, h₁]; rfl)
      have hmeets := (invariant_iff_meets hstep os hP₁ hrest).mp fun os' hos' s₂ h₂ =>
        hall (o :: os') ((List.prefix_cons_inj o).mpr hos') s₂ (by rw [run_cons, h₁]; exact h₂)
      refine ⟨(hstep s o s₁ hP h₁).mp hP₁, fun s₂ h₂ => ?_⟩
      rw [h₁, Option.some.injEq] at h₂
      exact h₂ ▸ hmeets
    · rintro ⟨hC, hmeets⟩ os' hos' s₂ h₂
      have hP₁ := (hstep s o s₁ hP h₁).mpr hC
      cases os' with
      | nil =>
        rw [run_nil, Option.some.injEq] at h₂
        exact h₂ ▸ hP
      | cons o' os' =>
        obtain ⟨rfl, htail⟩ := List.cons_prefix_cons.mp hos'
        rw [run_cons, h₁] at h₂
        exact (invariant_iff_meets hstep os hP₁ hrest).mpr (hmeets s₁ h₁) os' htail s₂ h₂

/-- **Marks.** A mark that the steps against `C` leave, and that never goes,
tells after the run if all its steps met `C`. -/
theorem marked_iff_not_meets {C : σ → op → Prop} {P M : σ → Prop}
    (hstep : ∀ s o s', P s → step s o = some s' → P s' ∧ (M s' ↔ M s ∨ ¬ C s o)) :
    ∀ (os : List op) {s s' : σ}, P s → run step os s = some s' →
      P s' ∧ (M s' ↔ M s ∨ ¬ Meets step C os s)
  | [], s, s', hP, h => by
    rw [run_nil, Option.some.injEq] at h
    subst h
    exact ⟨hP, by simp [Meets]⟩
  | o :: os, s, s', hP, h => by
    obtain ⟨s1, h1, h2⟩ := run_cons_some h
    obtain ⟨hP1, hM1⟩ := hstep s o s1 hP h1
    obtain ⟨hP', hM'⟩ := marked_iff_not_meets hstep os hP1 h2
    have hmeets : Meets step C (o :: os) s ↔ C s o ∧ Meets step C os s1 := by
      refine and_congr_right fun _ => ⟨fun hall => hall s1 h1, fun hos t ht => ?_⟩
      rw [h1, Option.some.injEq] at ht
      exact ht ▸ hos
    refine ⟨hP', ?_⟩
    rw [hM', hM1, hmeets, not_and_or, or_assoc]

end Lib
end WingOS
