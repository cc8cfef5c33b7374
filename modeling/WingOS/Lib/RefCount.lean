/-
# Reference counting

Cells that count the references to them. A reference is stored somewhere, with
a cell or elsewhere; `owner` tells which cell it is stored with. A cell whose
last reference is dropped is deleted, and drops the references stored with it.

`Exact hand s` says that the counts are right when `hand a` of the references
to `a` are not stored: they are in the hands of an operation, or were counted
and lost.

Key definitions: `Store`, `Store.drop`, `Store.Exact`.
Key theorems: `Store.exact_drop`, `Store.drop_some`.
-/
import Mathlib.Algebra.Group.Nat.Defs
import Mathlib.Data.Finset.Card
import Mathlib.Logic.Function.Basic
import Mathlib.Data.List.Basic

namespace WingOS

structure Cell (K : Type) where
  kind : K
  count : ℕ
  deriving DecidableEq

structure Store (P H K : Type) where
  cells : P → Option (Cell K)
  refs : List (H × P)

namespace Store

variable {P H K : Type}

/-- Cells are only deleted, or counted differently. -/
def Shrinks (s s' : Store P H K) : Prop :=
  ∀ a x', s'.cells a = some x' → ∃ x, s.cells a = some x ∧ x.kind = x'.kind

theorem Shrinks.refl (s : Store P H K) : Shrinks s s := fun _ x' h => ⟨x', h, rfl⟩

theorem Shrinks.trans {s s₁ s₂ : Store P H K} (h : Shrinks s s₁) (h' : Shrinks s₁ s₂) :
    Shrinks s s₂ := by
  intro a x' hx'
  obtain ⟨x₁, hx₁, hk₁⟩ := h' a x' hx'
  obtain ⟨x, hx, hk⟩ := h a x₁ hx₁
  exact ⟨x, hx, hk.trans hk₁⟩

/-- All cells that exist are among `live`. -/
def Within (live : Finset P) (s : Store P H K) : Prop := ∀ a, s.cells a ≠ none → a ∈ live

theorem Within.shrinks {live : Finset P} {s s' : Store P H K} (h : Within live s)
    (hs : Shrinks s s') : Within live s' := by
  intro a ha
  obtain ⟨x', hx'⟩ := Option.ne_none_iff_exists'.mp ha
  obtain ⟨x, hx, -⟩ := hs a x' hx'
  exact h a (by simp [hx])

variable [DecidableEq P]

def refsTo (s : Store P H K) (a : P) : ℕ := (s.refs.map Prod.snd).count a

def setCell (s : Store P H K) (a : P) (x : Option (Cell K)) : Store P H K :=
  { s with cells := Function.update s.cells a x }

/-- One more reference to a cell, not stored yet. -/
def own (s : Store P H K) (a : P) : Store P H K :=
  s.setCell a ((s.cells a).map fun x => { x with count := x.count + 1 })

/-- A reference is stored. -/
def put (s : Store P H K) (h : H) (a : P) : Store P H K := { s with refs := s.refs ++ [(h, a)] }

/-- A stored reference is taken out. -/
def take [DecidableEq H] (s : Store P H K) (h : H) (a : P) : Store P H K :=
  { s with refs := s.refs.erase (h, a) }

/-- The cells that the references stored with `a` point to. -/
def heldBy (owner : H → Option P) (s : Store P H K) (a : P) : List P :=
  (s.refs.filter fun r => owner r.1 = some a).map Prod.snd

/-- A cell goes, with the references stored with it. -/
def delete (owner : H → Option P) (s : Store P H K) (a : P) : Store P H K where
  cells := Function.update s.cells a none
  refs := s.refs.filter fun r => ¬ owner r.1 = some a

/-- One reference less. A count of 0 wraps around; a cell that does not exist
has no count to change. -/
def drop (owner : H → Option P) : (depth : ℕ) → P → Store P H K → Option (Store P H K)
  | 0, _, _ => none
  | depth + 1, a, s =>
    match s.cells a with
    | none => none
    | some x =>
      if x.count = 0 then some (s.setCell a (some { x with count := 2 ^ 64 - 1 }))
      else if x.count ≠ 1 then some (s.setCell a (some { x with count := x.count - 1 }))
      else (s.heldBy owner a).foldlM (fun s b => drop owner depth b s) (s.delete owner a)

structure Exact (hand : P → ℕ) (s : Store P H K) : Prop where
  count_eq : ∀ a x, s.cells a = some x → x.count = s.refsTo a + hand a
  pos : ∀ a x, s.cells a = some x → 0 < x.count
  gone : ∀ a, s.cells a = none → s.refsTo a = 0 ∧ hand a = 0

theorem shrinks_setCount {s : Store P H K} {a : P} {x : Cell K} (hx : s.cells a = some x) (n : ℕ) :
    Shrinks s (s.setCell a (some { x with count := n })) := by
  intro b x' hx'
  by_cases hb : b = a
  · subst hb
    simp only [setCell, Function.update_self, Option.some.injEq] at hx'
    exact ⟨x, hx, by rw [← hx']⟩
  · simp only [setCell, Function.update_of_ne hb] at hx'
    exact ⟨x', hx', rfl⟩

theorem shrinks_delete (owner : H → Option P) (s : Store P H K) (a : P) :
    Shrinks s (s.delete owner a) := by
  intro b x' hx'
  by_cases hb : b = a
  · subst hb
    simp [delete] at hx'
  · simp only [delete, Function.update_of_ne hb] at hx'
    exact ⟨x', hx', rfl⟩

/-- The references to a cell are those stored with `a` and the others. -/
theorem refsTo_delete (owner : H → Option P) (s : Store P H K) (a b : P) :
    s.refsTo b = (s.delete owner a).refsTo b + (s.heldBy owner a).count b := by
  unfold refsTo delete heldBy
  induction s.refs with
  | nil => simp
  | cons r rs ih =>
    by_cases hr : owner r.1 = some a
    · simp only [List.map_cons, List.count_cons, List.filter_cons, hr, decide_true, not_true_eq_false,
        decide_false, if_true, Bool.false_eq_true, if_false, ih]
      omega
    · simp only [List.map_cons, List.count_cons, List.filter_cons, hr, decide_false, not_false_eq_true,
        decide_true, if_true, Bool.false_eq_true, if_false, ih]
      omega

theorem refsTo_put (s : Store P H K) (h : H) (a b : P) :
    (s.put h a).refsTo b = s.refsTo b + if b = a then 1 else 0 := by
  by_cases hb : b = a
  · subst hb
    simp [put, refsTo]
  · simp [put, refsTo, hb, Ne.symm hb]

theorem refsTo_take [DecidableEq H] {s : Store P H K} {h : H} {a : P} (hmem : (h, a) ∈ s.refs) (b : P) :
    s.refsTo b = (s.take h a).refsTo b + if b = a then 1 else 0 := by
  have hperm : s.refs.Perm ((h, a) :: s.refs.erase (h, a)) := List.perm_cons_erase hmem
  have hcount := (hperm.map Prod.snd).count_eq b
  unfold refsTo take
  rw [hcount, List.map_cons, List.count_cons]
  by_cases hb : b = a
  · simp [hb]
  · simp [hb, Ne.symm hb]

namespace Exact

variable {hand : P → ℕ} {s s' : Store P H K} {a : P} {h : H}

/-- A cell is set, and its count is right. -/
theorem update (hs : Exact hand s) {x : Cell K} {n : ℕ} (hcount : x.count = s.refsTo a + n) (hpos : 0 < x.count) :
    Exact (Function.update hand a n) (s.setCell a (some x)) := by
  refine ⟨fun b y hy => ?_, fun b y hy => ?_, fun b hb => ?_⟩
  · by_cases hb : b = a
    · subst hb
      simp only [setCell, Function.update_self, Option.some.injEq] at hy
      subst hy
      rw [Function.update_self]
      exact hcount
    · rw [Function.update_of_ne hb]
      simp only [setCell, Function.update_of_ne hb] at hy
      exact hs.count_eq b y hy
  · by_cases hb : b = a
    · subst hb
      simp only [setCell, Function.update_self, Option.some.injEq] at hy
      subst hy
      exact hpos
    · simp only [setCell, Function.update_of_ne hb] at hy
      exact hs.pos b y hy
  · by_cases hba : b = a
    · subst hba
      simp [setCell] at hb
    · rw [Function.update_of_ne hba]
      simp only [setCell, Function.update_of_ne hba] at hb
      exact hs.gone b hb

theorem own (hs : Exact hand s) (ha : s.cells a ≠ none) :
    Exact (Function.update hand a (hand a + 1)) (s.own a) := by
  obtain ⟨x, hx⟩ := Option.ne_none_iff_exists'.mp ha
  have hcount := hs.count_eq a x hx
  rw [Store.own, hx, Option.map_some]
  refine hs.update ?_ (Nat.succ_pos _)
  dsimp only
  rw [hcount, Nat.add_assoc]

theorem put (hs : Exact (Function.update hand a (hand a + 1)) s) : Exact hand (s.put h a) := by
  have hlive : s.cells a ≠ none := by
    intro hnone
    have := (hs.gone a hnone).2
    rw [Function.update_self] at this
    exact Nat.succ_ne_zero _ this
  refine ⟨fun b x hx => ?_, hs.pos, fun b hb => ?_⟩
  · have hcount := hs.count_eq b x hx
    rw [refsTo_put, hcount]
    by_cases hb : b = a
    · subst hb
      rw [Function.update_self, if_pos rfl]
      omega
    · rw [Function.update_of_ne hb, if_neg hb, Nat.add_zero]
  · have hba : b ≠ a := fun hba => hlive (hba ▸ hb)
    have hgone := hs.gone b hb
    rw [Function.update_of_ne hba] at hgone
    rw [refsTo_put, if_neg hba]
    exact hgone

theorem live_of_mem (hs : Exact hand s) (hmem : (h, a) ∈ s.refs) : s.cells a ≠ none := by
  intro hnone
  have hzero := (hs.gone a hnone).1
  have hpos : 0 < s.refsTo a := List.count_pos_iff.mpr (List.mem_map.mpr ⟨(h, a), hmem, rfl⟩)
  omega

theorem take [DecidableEq H] (hs : Exact hand s) (hmem : (h, a) ∈ s.refs) :
    Exact (Function.update hand a (hand a + 1)) (s.take h a) := by
  refine ⟨fun b x hx => ?_, hs.pos, fun b hb => ?_⟩
  · have hcount := hs.count_eq b x hx
    have htake := refsTo_take hmem b
    by_cases hb : b = a
    · subst hb
      rw [if_pos rfl] at htake
      rw [Function.update_self]
      omega
    · rw [if_neg hb] at htake
      rw [Function.update_of_ne hb]
      omega
  · have hba : b ≠ a := fun hba => hs.live_of_mem hmem (hba ▸ hb)
    have htake := refsTo_take hmem b
    rw [if_neg hba] at htake
    rw [Function.update_of_ne hba]
    have hgone := hs.gone b hb
    exact ⟨by omega, hgone.2⟩

/-- A new cell, with its first reference. -/
theorem add (hs : Exact hand s) (ha : s.cells a = none) (k : K) :
    Exact hand ((s.setCell a (some ⟨k, 1⟩)).put h a) := by
  have hgone := hs.gone a ha
  apply put
  refine hs.update ?_ Nat.one_pos
  dsimp only
  rw [hgone.1, hgone.2]

/-- A reference in hand of a cell that has others is given up. -/
theorem giveUp (hs : Exact hand s) {x : Cell K} (hx : s.cells a = some x) (hhand : 0 < hand a)
    (hne : x.count ≠ 1) :
    Exact (Function.update hand a (hand a - 1)) (s.setCell a (some { x with count := x.count - 1 })) := by
  have hcount := hs.count_eq a x hx
  apply hs.update
  · dsimp only
    omega
  · dsimp only
    omega

/-- The last reference is given up: what the cell held is in hand. -/
theorem delete (hs : Exact hand s) (owner : H → Option P) {x : Cell K} (hx : s.cells a = some x)
    (hhand : 0 < hand a) (hone : x.count = 1) :
    Exact (fun b => Function.update hand a (hand a - 1) b + (s.heldBy owner a).count b)
      (s.delete owner a) := by
  have hcount := hs.count_eq a x hx
  refine ⟨fun b y hy => ?_, fun b y hy => ?_, fun b hb => ?_⟩
  · by_cases hb : b = a
    · subst hb
      simp [Store.delete] at hy
    · simp only [Store.delete, Function.update_of_ne hb] at hy
      have hpart := refsTo_delete owner s a b
      have hy' := hs.count_eq b y hy
      simp only [Function.update_of_ne hb]
      omega
  · by_cases hb : b = a
    · subst hb
      simp [Store.delete] at hy
    · simp only [Store.delete, Function.update_of_ne hb] at hy
      exact hs.pos b y hy
  · have hpart := refsTo_delete owner s a b
    by_cases hba : b = a
    · subst hba
      simp only [Function.update_self]
      omega
    · simp only [Store.delete, Function.update_of_ne hba] at hb
      have hgone := hs.gone b hb
      simp only [Function.update_of_ne hba]
      omega

end Exact

variable {owner : H → Option P} {hand : P → ℕ} {s s' : Store P H K} {a : P}

/-- What dropping one reference does to exact counts. -/
def DropsOne (owner : H → Option P) (depth : ℕ) : Prop :=
  ∀ (hand : P → ℕ) (a : P) (s s' : Store P H K), Exact hand s → 0 < hand a →
    drop owner depth a s = some s' →
    Exact (Function.update hand a (hand a - 1)) s' ∧ Shrinks s s'

/-- With the first of a list of references dropped, the others are in hand. -/
theorem hand_cons (hand : P → ℕ) (b : P) (held : List P) :
    Function.update (fun c => hand c + (b :: held).count c) b (hand b + (b :: held).count b - 1) =
      fun c => hand c + held.count c := by
  funext c
  by_cases hc : c = b
  · subst hc
    rw [Function.update_self, List.count_cons_self]
    omega
  · rw [Function.update_of_ne hc, List.count_cons_of_ne (Ne.symm hc)]

/-- A list of references in hand is dropped one by one. -/
theorem exact_dropAll {depth : ℕ} (hdrop : DropsOne (K := K) owner depth) : ∀ (held : List P)
    {hand : P → ℕ} {s s' : Store P H K}, Exact (fun b => hand b + held.count b) s →
    held.foldlM (fun s b => drop owner depth b s) s = some s' → Exact hand s' ∧ Shrinks s s'
  | [], hand, s, s', hs, h => by
    simp only [List.foldlM_nil, Option.pure_def, Option.some.injEq] at h
    subst h
    exact ⟨by simpa using hs, Shrinks.refl s⟩
  | b :: held, hand, s, s', hs, h => by
    rw [List.foldlM_cons, Option.bind_eq_bind, Option.bind_eq_some_iff] at h
    obtain ⟨s₁, h₁, h⟩ := h
    have hpos : 0 < hand b + (b :: held).count b := by
      rw [List.count_cons_self]
      omega
    obtain ⟨hs₁, hshrink₁⟩ := hdrop _ b s s₁ hs hpos h₁
    rw [hand_cons] at hs₁
    obtain ⟨hs', hshrink⟩ := exact_dropAll hdrop held hs₁ h
    exact ⟨hs', hshrink₁.trans hshrink⟩

/-- **A dropped reference keeps the counts exact**, through all deletions it
causes. -/
theorem exact_drop (owner : H → Option P) : ∀ depth : ℕ, DropsOne (K := K) owner depth
  | 0, hand, a, s, s', hs, hhand, h => by simp [drop] at h
  | depth + 1, hand, a, s, s', hs, hhand, h => by
    unfold drop at h
    cases hx : s.cells a with
    | none => simp [hx] at h
    | some x =>
      rw [hx] at h
      dsimp only at h
      have hpos := hs.pos a x hx
      rw [if_neg (Nat.pos_iff_ne_zero.mp hpos)] at h
      by_cases hone : x.count ≠ 1
      · rw [if_pos hone, Option.some.injEq] at h
        subst h
        exact ⟨hs.giveUp hx hhand hone, shrinks_setCount hx _⟩
      · rw [if_neg hone] at h
        rw [not_not] at hone
        obtain ⟨hs', hshrink⟩ := exact_dropAll (exact_drop owner depth) _
          (hs.delete owner hx hhand hone) h
        exact ⟨hs', (shrinks_delete owner s a).trans hshrink⟩

theorem Within.delete {live : Finset P} (h : Within live s) :
    Within (live.erase a) (s.delete owner a) := by
  intro b hb
  by_cases hba : b = a
  · subst hba
    simp [Store.delete] at hb
  · simp only [Store.delete, Function.update_of_ne hba] at hb
    exact Finset.mem_erase.mpr ⟨hba, h b hb⟩

theorem dropAll_some {depth : ℕ} {live : Finset P}
    (hdrop : ∀ (hand : P → ℕ) (a : P) (s : Store P H K), Exact hand s → 0 < hand a →
      Within live s → ∃ s', drop owner depth a s = some s') :
    ∀ (held : List P) {hand : P → ℕ} {s : Store P H K}, Exact (fun b => hand b + held.count b) s →
      Within live s → ∃ s', held.foldlM (fun s b => drop owner depth b s) s = some s'
  | [], _, s, _, _ => ⟨s, rfl⟩
  | b :: held, hand, s, hs, hlive => by
    have hpos : 0 < hand b + (b :: held).count b := by
      rw [List.count_cons_self]
      omega
    obtain ⟨s₁, h₁⟩ := hdrop _ b s hs hpos hlive
    obtain ⟨hs₁, hshrink⟩ := exact_drop owner depth _ b s s₁ hs hpos h₁
    rw [hand_cons] at hs₁
    obtain ⟨s', h'⟩ := dropAll_some hdrop held hs₁ (hlive.shrinks hshrink)
    exact ⟨s', by rw [List.foldlM_cons, h₁]; exact h'⟩

/-- A depth above the number of cells is enough: each level deletes one. -/
theorem drop_some (owner : H → Option P) : ∀ (depth : ℕ) (live : Finset P), live.card < depth →
    ∀ (hand : P → ℕ) (a : P) (s : Store P H K), Exact hand s → 0 < hand a → Within live s →
      ∃ s', drop owner depth a s = some s'
  | 0, _, hcard, _, _, _, _, _, _ => absurd hcard (Nat.not_lt_zero _)
  | depth + 1, live, hcard, hand, a, s, hs, hhand, hlive => by
    have ha : s.cells a ≠ none := fun hnone => Nat.pos_iff_ne_zero.mp hhand (hs.gone a hnone).2
    obtain ⟨x, hx⟩ := Option.ne_none_iff_exists'.mp ha
    have hpos := hs.pos a x hx
    unfold drop
    rw [hx]
    dsimp only
    rw [if_neg (Nat.pos_iff_ne_zero.mp hpos)]
    by_cases hone : x.count ≠ 1
    · rw [if_pos hone]
      exact ⟨_, rfl⟩
    · rw [if_neg hone]
      rw [not_not] at hone
      have hmem := hlive a ha
      have hless : (live.erase a).card < depth := by
        rw [Finset.card_erase_of_mem hmem]
        have := Finset.card_pos.mpr ⟨a, hmem⟩
        omega
      exact dropAll_some (drop_some owner depth (live.erase a) hless) _
        (hs.delete owner hx hhand hone) hlive.delete

end Store
end WingOS
