/-
# Trees of nodes, by their paths

Nodes in a heap, each with children at indices: `child t i` is the child of
the node `t` at `i`, if there is one. A path is a list of indices, and
`nodeAt` is the node a path leads to. The nodes form a tree down to a depth if
no node is on two paths (`TreeOn`).

A change of one child of one node changes only the paths through it
(`nodeAt_update`). So a new child without children of its own is one new node
at the end of one path (`nodeAt_insert`), and the removal of such a child takes
one node away (`nodeAt_erase`). Both keep the tree.

Key definitions: `nodeAt`, `TreeOn`, `SameExcept`.
Key theorems: `nodeAt_update`, `nodeAt_insert`, `nodeAt_erase`,
`TreeOn.insert`, `TreeOn.erase`.
-/
import Mathlib.Data.List.Basic
import Mathlib.Data.List.Infix

namespace WingOS
namespace Lib

variable {α ι : Type*}

/-- The node the path leads to. -/
def nodeAt (child : α → ι → Option α) : α → List ι → Option α
  | t, [] => some t
  | t, i :: p => (child t i).bind fun c => nodeAt child c p

/-- Down to the depth `n`, every node is on one path only. -/
def TreeOn (child : α → ι → Option α) (t : α) (n : ℕ) : Prop :=
  ∀ p q x, p.length ≤ n → q.length ≤ n → nodeAt child t p = some x → nodeAt child t q = some x →
    p = q

section Paths

variable {child child' : α → ι → Option α} {t s : α} {p q : List ι} {i : ι} {n : ℕ}

theorem nodeAt_cons : nodeAt child t (i :: p) = (child t i).bind fun c => nodeAt child c p := rfl

theorem nodeAt_append : ∀ (p q : List ι) (t : α),
    nodeAt child t (p ++ q) = (nodeAt child t p).bind fun x => nodeAt child x q
  | [], _, _ => rfl
  | i :: p, q, t => by
    rw [List.cons_append, nodeAt_cons, nodeAt_cons, Option.bind_assoc]
    congr 1
    funext c
    exact nodeAt_append p q c

theorem nodeAt_concat (p : List ι) (i : ι) (t : α) :
    nodeAt child t (p ++ [i]) = (nodeAt child t p).bind fun x => child x i := by
  rw [nodeAt_append]
  congr 1
  funext x
  exact Option.bind_fun_some _

theorem nodeAt_concat_of_some (h : nodeAt child t p = some s) :
    nodeAt child t (p ++ [i]) = child s i := by
  rw [nodeAt_concat, h]
  rfl

/-- A path does not change if no child on it does. -/
theorem nodeAt_congr (q : List ι)
    (h : ∀ r i, r ++ [i] <+: q → ∀ x, nodeAt child t r = some x → child' x i = child x i) :
    nodeAt child' t q = nodeAt child t q := by
  induction q using List.reverseRecOn with
  | nil => rfl
  | append_singleton q j ih =>
    have hq : nodeAt child' t q = nodeAt child t q := by
      apply ih
      intro r i hr
      exact h r i (hr.trans (List.prefix_append q [j]))
    rw [nodeAt_concat, nodeAt_concat, hq]
    cases hx : nodeAt child t q with
    | none => rfl
    | some x => exact h q j (List.prefix_refl _) x hx

/-- The nodes down to the depth `n` have the same children, but for the child
of `s` at `i`. -/
def SameExcept (child child' : α → ι → Option α) (t : α) (n : ℕ) (s : α) (i : ι) : Prop :=
  ∀ q x j, q.length ≤ n → nodeAt child t q = some x → ¬ (x = s ∧ j = i) → child' x j = child x j

/-- A change of the child of `s` at `i` changes only the paths through it. -/
theorem nodeAt_update (hT : TreeOn child t n) (hs : nodeAt child t p = some s) (hp : p.length ≤ n)
    (hsame : SameExcept child child' t n s i) (hq : q.length ≤ n + 1) (hnot : ¬ p ++ [i] <+: q) :
    nodeAt child' t q = nodeAt child t q := by
  apply nodeAt_congr
  intro r j hr x hx
  have hlen := hr.length_le
  rw [List.length_append, List.length_singleton] at hlen
  apply hsame r x j (by omega) hx
  intro ⟨hxs, hji⟩
  rw [hxs] at hx
  apply hnot
  rw [← hji, hT p r s hp (by omega) hs hx]
  exact hr

/-- In particular not the one to `s`. -/
theorem nodeAt_update_self (hT : TreeOn child t n) (hs : nodeAt child t p = some s)
    (hp : p.length ≤ n) (hsame : SameExcept child child' t n s i) : nodeAt child' t p = some s := by
  rw [nodeAt_update hT hs hp hsame (by omega), hs]
  intro h
  have := h.length_le
  rw [List.length_append, List.length_singleton] at this
  omega

/-- The paths through it. -/
theorem nodeAt_below (hT : TreeOn child t n) (hs : nodeAt child t p = some s) (hp : p.length ≤ n)
    (hsame : SameExcept child child' t n s i) (r : List ι) :
    nodeAt child' t (p ++ [i] ++ r) = (child' s i).bind fun c => nodeAt child' c r := by
  rw [nodeAt_append, nodeAt_concat_of_some (nodeAt_update_self hT hs hp hsame)]

theorem nodeAt_of_childless {c : α} (hc : ∀ j, child c j = none) (hne : q ≠ []) :
    nodeAt child c q = none := by
  cases q with
  | nil => exact absurd rfl hne
  | cons j q =>
    rw [nodeAt_cons, hc j]
    rfl

section Leaf

variable {c : α}

/-- A new child, without children. -/
theorem nodeAt_insert [DecidableEq ι] (hT : TreeOn child t n) (hs : nodeAt child t p = some s)
    (hp : p.length ≤ n) (hsame : SameExcept child child' t n s i) (hnone : child s i = none)
    (hsome : child' s i = some c) (hc : ∀ j, child' c j = none) (hq : q.length ≤ n + 1) :
    nodeAt child' t q = if q = p ++ [i] then some c else nodeAt child t q := by
  by_cases hpre : p ++ [i] <+: q
  · obtain ⟨r, rfl⟩ := hpre
    rw [nodeAt_below hT hs hp hsame, hsome, Option.bind_some]
    by_cases hr : r = []
    · rw [hr, List.append_nil, if_pos rfl]
      rfl
    · have hold : nodeAt child t (p ++ [i] ++ r) = none := by
        rw [nodeAt_append, nodeAt_concat_of_some hs, hnone]
        rfl
      rw [nodeAt_of_childless hc hr, if_neg, hold]
      intro h
      exact hr (List.append_right_eq_self.mp h)
  · rw [nodeAt_update hT hs hp hsame hq hpre, if_neg]
    intro h
    exact hpre (h ▸ List.prefix_refl _)

/-- A child without children goes away. -/
theorem nodeAt_erase [DecidableEq ι] (hT : TreeOn child t n) (hs : nodeAt child t p = some s)
    (hp : p.length ≤ n) (hsame : SameExcept child child' t n s i) (hsome : child s i = some c)
    (hc : ∀ j, child c j = none) (hnone : child' s i = none) (hq : q.length ≤ n + 1) :
    nodeAt child' t q = if q = p ++ [i] then none else nodeAt child t q := by
  by_cases hpre : p ++ [i] <+: q
  · obtain ⟨r, rfl⟩ := hpre
    rw [nodeAt_below hT hs hp hsame, hnone, Option.bind_none]
    by_cases hr : r = []
    · rw [hr, List.append_nil, if_pos rfl]
    · have hold : nodeAt child t (p ++ [i] ++ r) = none := by
        rw [nodeAt_append, nodeAt_concat_of_some hs, hsome]
        exact nodeAt_of_childless hc hr
      rw [hold, ite_self]
  · rw [nodeAt_update hT hs hp hsame hq hpre, if_neg]
    intro h
    exact hpre (h ▸ List.prefix_refl _)

theorem TreeOn.insert [DecidableEq ι] (hT : TreeOn child t n) (hs : nodeAt child t p = some s)
    (hp : p.length ≤ n) (hsame : SameExcept child child' t n s i) (hnone : child s i = none)
    (hsome : child' s i = some c) (hc : ∀ j, child' c j = none)
    (hfresh : ∀ q, q.length ≤ n → nodeAt child t q ≠ some c) : TreeOn child' t n := by
  intro q r x hq hr hqx hrx
  rw [nodeAt_insert hT hs hp hsame hnone hsome hc (by omega)] at hqx hrx
  by_cases h1 : q = p ++ [i]
  · by_cases h2 : r = p ++ [i]
    · rw [h1, h2]
    · rw [if_pos h1] at hqx
      rw [if_neg h2, ← hqx] at hrx
      exact absurd hrx (hfresh r hr)
  · rw [if_neg h1] at hqx
    by_cases h2 : r = p ++ [i]
    · rw [if_pos h2] at hrx
      rw [← hrx] at hqx
      exact absurd hqx (hfresh q hq)
    · rw [if_neg h2] at hrx
      exact hT q r x hq hr hqx hrx

theorem TreeOn.erase [DecidableEq ι] (hT : TreeOn child t n) (hs : nodeAt child t p = some s)
    (hp : p.length ≤ n) (hsame : SameExcept child child' t n s i) (hsome : child s i = some c)
    (hc : ∀ j, child c j = none) (hnone : child' s i = none) : TreeOn child' t n := by
  intro q r x hq hr hqx hrx
  rw [nodeAt_erase hT hs hp hsame hsome hc hnone (by omega)] at hqx hrx
  by_cases h1 : q = p ++ [i]
  · rw [if_pos h1] at hqx
    cases hqx
  · by_cases h2 : r = p ++ [i]
    · rw [if_pos h2] at hrx
      cases hrx
    · rw [if_neg h1] at hqx
      rw [if_neg h2] at hrx
      exact hT q r x hq hr hqx hrx

end Leaf
end Paths
end Lib
end WingOS
