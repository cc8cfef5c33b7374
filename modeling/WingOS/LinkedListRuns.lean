/-
# Runs of `LinkedList` operations

The nodes of the lists of all variables are disjoint (`Inv`). Each operation
keeps that, and does to the sequence of a list what the sequence asks for, but
for `operator+=` of an empty list to one that has elements: that list then has a
head and no tail, and the next `push` does not link its node
(`append_empty_breaks`). In every run without such a step the lists are the
sequences (`lists_refine`).

Key definitions: `Inv`, `Keeps`, `init`.
Key theorems: `inv_set`, `step_inv`, `append_empty_breaks`, `lists_refine`.
-/
import WingOS.LinkedList
import WingOS.Lib.Run
import Mathlib.Logic.Equiv.Basic

namespace WingOS
namespace LinkedList

open Lib (addrs addrs_cons addrs_append run Meets run_refines_of_meets)

variable {ι Addr α : Type*} [DecidableEq Addr]

/-! ### The lists of all variables -/

/-- The nodes of every list, and the sequences they hold. -/
structure Inv (s : State ι Addr α) (nodes : ι → List (Addr × α)) (a : ι → Option (List α)) : Prop where
  owns : ∀ i l, s.lists i = some l → Owns s.heap l (nodes i)
  dead : ∀ i, s.lists i = none → nodes i = []
  nodup : ∀ i, (addrs (nodes i)).Nodup
  apart : ∀ i j, i ≠ j → ∀ p ∈ addrs (nodes i), p ∉ addrs (nodes j)
  values : ∀ i, a i = (s.lists i).map fun _ => (nodes i).map Prod.snd

section Runs

variable {s s' : State ι Addr α} {nodes : ι → List (Addr × α)} {a a' : ι → Option (List α)}

/-- A list of the invariant, with its sequence. -/
theorem Inv.get (h : Inv s nodes a) {i : ι} {xs : List α} (ha : a i = some xs) :
    ∃ l, s.lists i = some l ∧ Owns s.heap l (nodes i) ∧ xs = (nodes i).map Prod.snd := by
  rw [h.values, Option.map_eq_some_iff] at ha
  obtain ⟨l, hl, rfl⟩ := ha
  exact ⟨l, hl, h.owns i l hl, rfl⟩

theorem Inv.none_iff (h : Inv s nodes a) (i : ι) : a i = none ↔ s.lists i = none := by
  rw [h.values, Option.map_eq_none_iff]

theorem Inv.refines (h : Inv s nodes a) : Refines s a := by
  refine fun i => ⟨(h.none_iff i).symm, fun l xs hl ha => ?_⟩
  obtain ⟨l', hl', howns, rfl⟩ := h.get ha
  rw [hl, Option.some.injEq] at hl'
  subst hl'
  exact howns.shows (h.nodup i)

/-- An address that is not in the heap is not a node. -/
theorem Inv.fresh (h : Inv s nodes a) {p : Addr} (hp : p ∉ s.heap) (i : ι) : p ∉ addrs (nodes i) := by
  intro hmem
  cases hl : s.lists i with
  | none =>
    rw [h.dead i hl] at hmem
    exact List.not_mem_nil hmem
  | some l => exact hp ((h.owns i l hl).mem hmem)

variable [DecidableEq ι]

/-- **One list changes**: its new nodes are of no other list, and the nodes of
the other lists stay. -/
theorem inv_set (h : Inv s nodes a) (i : ι) (heap : Heap Addr α) (o : Option (LinkedList Addr))
    (xs : List (Addr × α)) (howns : ∀ l, o = some l → Owns heap l xs) (hdead : o = none → xs = [])
    (hnodup : (addrs xs).Nodup) (hapart : ∀ p ∈ addrs xs, ∀ j, j ≠ i → p ∉ addrs (nodes j))
    (hframe : ∀ j, j ≠ i → ∀ p ∈ addrs (nodes j), s.heap.lookup p = heap.lookup p)
    {ys : Option (List α)} (hys : ys = o.map fun _ => xs.map Prod.snd) :
    Inv ({ s with heap }.set i o) (Function.update nodes i xs) (Function.update a i ys) where
  owns j l hl := by
    by_cases hj : j = i
    · subst hj
      rw [State.set_lists, Function.update_self] at hl
      rw [Function.update_self]
      exact howns l hl
    · rw [State.set_lists, Function.update_of_ne hj] at hl
      rw [Function.update_of_ne hj]
      exact (h.owns j l hl).congr (hframe j hj)
  dead j hl := by
    by_cases hj : j = i
    · subst hj
      rw [State.set_lists, Function.update_self] at hl
      rw [Function.update_self]
      exact hdead hl
    · rw [State.set_lists, Function.update_of_ne hj] at hl
      rw [Function.update_of_ne hj]
      exact h.dead j hl
  nodup j := by
    by_cases hj : j = i
    · subst hj
      rw [Function.update_self]
      exact hnodup
    · rw [Function.update_of_ne hj]
      exact h.nodup j
  apart j k hjk p hp := by
    by_cases hj : j = i
    · subst hj
      rw [Function.update_self] at hp
      rw [Function.update_of_ne (Ne.symm hjk)]
      exact hapart p hp k (Ne.symm hjk)
    · rw [Function.update_of_ne hj] at hp
      by_cases hk : k = i
      · subst hk
        rw [Function.update_self]
        exact fun hxs => hapart p hxs j hjk hp
      · rw [Function.update_of_ne hk]
        exact h.apart j k hjk p hp
  values j := by
    by_cases hj : j = i
    · subst hj
      rw [State.set_lists, Function.update_self, Function.update_self, Function.update_self, hys]
    · rw [State.set_lists, Function.update_of_ne hj, Function.update_of_ne hj, Function.update_of_ne hj]
      exact h.values j

/-- The lists of two variables change places. -/
theorem inv_swap (h : Inv s nodes a) (i j : ι) :
    Inv { s with lists := s.lists ∘ Equiv.swap i j } (nodes ∘ Equiv.swap i j) (a ∘ Equiv.swap i j) where
  owns k := h.owns (Equiv.swap i j k)
  dead k := h.dead (Equiv.swap i j k)
  nodup k := h.nodup (Equiv.swap i j k)
  apart _ _ hk := h.apart _ _ fun heq => hk ((Equiv.swap i j).injective heq)
  values k := h.values (Equiv.swap i j k)

omit [DecidableEq Addr] in
theorem update_swap {β : Type*} (f : ι → β) (i j : ι) :
    Function.update (Function.update f i (f j)) j (f i) = f ∘ Equiv.swap i j := by
  funext k
  rw [Function.comp_apply, Equiv.swap_apply_def]
  by_cases hj : k = j
  · subst hj
    rw [Function.update_self]
    by_cases hi : k = i
    · rw [if_pos hi, hi]
    · rw [if_neg hi, if_pos rfl]
  · rw [Function.update_of_ne hj]
    by_cases hi : k = i
    · subst hi
      rw [Function.update_self, if_pos rfl]
    · rw [Function.update_of_ne hi, if_neg hi, if_neg hj]

/-- A list that gives up its nodes, and the nodes to another list. -/
theorem inv_clear (h : Inv s nodes a) (i : ι) (l : LinkedList Addr) (hl : l = empty) :
    Inv (s.set i (some l)) (Function.update nodes i []) (Function.update a i (some [])) :=
  inv_set h i s.heap _ [] (fun _ h' => Option.some.inj h' ▸ hl ▸ owns_empty) (fun _ => rfl) List.nodup_nil
    (fun _ hp => absurd hp List.not_mem_nil) (fun _ _ _ _ => rfl) rfl

/-- A list keeps some of its nodes, and only these nodes were touched. -/
theorem inv_shrink (h : Inv s nodes a) (i : ι) {heap : Heap Addr α} {o : Option (LinkedList Addr)}
    {xs : List (Addr × α)} (howns : ∀ l, o = some l → Owns heap l xs) (hdead : o = none → xs = [])
    (hsub : (addrs xs).Sublist (addrs (nodes i)))
    (hframe : ∀ p, p ∉ addrs (nodes i) → s.heap.lookup p = heap.lookup p)
    {ys : Option (List α)} (hys : ys = o.map fun _ => xs.map Prod.snd) :
    Inv ({ s with heap }.set i o) (Function.update nodes i xs) (Function.update a i ys) :=
  inv_set h i heap o xs howns hdead ((h.nodup i).sublist hsub)
    (fun p hp j hj => h.apart i j (Ne.symm hj) p (hsub.subset hp))
    (fun j hj p hp => hframe p (h.apart j i hj p hp)) hys

/-- The step `o` gets through, and keeps the invariant with the sequences `a'`. -/
def Keeps (s : State ι Addr α) (o : Op ι Addr α) (a' : ι → Option (List α)) : Prop :=
  ∃ s' nodes', step s o = some s' ∧ Inv s' nodes' a'

theorem keeps_push (h : Inv s nodes a) {i : ι} {p : Addr} {v : α} {xs : List α} (hxs : a i = some xs)
    (hmalloc : p ∉ s.heap) : Keeps s (.push i p v) (Function.update a i (some (xs ++ [v]))) := by
  obtain ⟨l, hl, howns, rfl⟩ := h.get hxs
  obtain ⟨heap', l', hpush, howns', hframe⟩ := push_owns (v := v) howns (h.nodup i) hmalloc
  refine ⟨{ s with heap := heap' }.set i (some l'), Function.update nodes i (nodes i ++ [(p, v)]), ?_,
    inv_set h i heap' (some l') _ (fun _ h' => Option.some.inj h' ▸ howns') (fun h' => absurd h' (by simp))
      ?_ ?_ ?_ (by simp)⟩
  · simp only [step, hl, Option.bind_some, hpush, Option.map_some]
  · rw [addrs_append]
    exact (h.nodup i).append (List.nodup_singleton p)
      (List.disjoint_singleton.mpr (h.fresh hmalloc i))
  · intro q hq j hj
    rw [addrs_append] at hq
    rcases List.mem_append.mp hq with hold | hnew
    · exact h.apart i j (Ne.symm hj) q hold
    · rw [List.mem_singleton.mp hnew]
      exact h.fresh hmalloc j
  · intro j hj q hq
    exact hframe q (h.apart j i hj q hq) fun heq => h.fresh hmalloc j (heq ▸ hq)

theorem keeps_popFront (h : Inv s nodes a) {i : ι} {xs : List α} (hxs : a i = some xs) (hne : xs ≠ []) :
    Keeps s (.popFront i) (Function.update a i (some xs.tail)) := by
  obtain ⟨l, hl, howns, rfl⟩ := h.get hxs
  cases hnodes : nodes i with
  | nil => exact absurd (by rw [hnodes]; rfl) hne
  | cons x rest =>
    obtain ⟨p, v⟩ := x
    have hnodup := h.nodup i
    rw [hnodes] at howns hnodup
    obtain ⟨heap', l', hpop, howns', hframe⟩ := popFront_owns howns hnodup
    refine ⟨{ s with heap := heap' }.set i (some l'), Function.update nodes i rest, ?_,
      inv_shrink h i (fun _ h' => Option.some.inj h' ▸ howns') (fun h' => absurd h' (by simp)) ?_ ?_ rfl⟩
    · simp only [step, hl, Option.bind_some, hpop, Option.map_some]
    · rw [hnodes, addrs_cons]
      exact List.sublist_cons_self p (addrs rest)
    · intro q hq
      exact hframe q fun heq => hq (by rw [hnodes, heq]; exact List.mem_cons_self)

omit [DecidableEq Addr] in
/-- A list with a place behind the first one. -/
theorem exists_two (xs : List (Addr × α)) (k : ℕ) (h : k + 1 < xs.length) :
    ∃ ys x y zs, xs = ys ++ x :: y :: zs ∧ ys.length = k := by
  refine ⟨xs.take k, xs[k], xs[k + 1], xs.drop (k + 2), ?_, List.length_take_of_le (by omega)⟩
  rw [← List.drop_eq_getElem_cons h, ← List.drop_eq_getElem_cons, List.take_append_drop]

theorem keeps_remove (h : Inv s nodes a) {i : ι} {idx : ℕ} {xs : List α} (hxs : a i = some xs)
    (hidx : idx < xs.length) : Keeps s (.remove i idx) (Function.update a i (some (xs.eraseIdx idx))) := by
  cases idx with
  | zero =>
    obtain ⟨s', nodes', hstep, hinv⟩ :=
      keeps_popFront h hxs (fun hnil => by rw [hnil] at hidx; exact absurd hidx (Nat.not_lt_zero 0))
    refine ⟨s', nodes', ?_, ?_⟩
    · rw [← hstep]
      simp only [step, remove, if_true, Option.map_map]
      rfl
    · rw [List.eraseIdx_zero]
      exact hinv
  | succ k =>
    obtain ⟨l, hl, howns, rfl⟩ := h.get hxs
    rw [List.length_map] at hidx
    obtain ⟨ys, ⟨p, v⟩, ⟨d, w⟩, zs, hnodes, rfl⟩ := exists_two (nodes i) k hidx
    have hnodup := h.nodup i
    rw [hnodes] at howns hnodup
    obtain ⟨heap', l', hremove, howns', hframe⟩ := remove_owns howns hnodup
    refine ⟨{ s with heap := heap' }.set i (some l'), Function.update nodes i (ys ++ (p, v) :: zs), ?_,
      inv_shrink h i (fun _ h' => Option.some.inj h' ▸ howns') (fun h' => absurd h' (by simp)) ?_ ?_ ?_⟩
    · simp only [step, hl, Option.bind_some, hremove, Option.map_some]
    · rw [hnodes]
      simp [addrs_append]
    · rw [hnodes]
      exact hframe
    · rw [hnodes, Option.map_some, List.map_append, List.eraseIdx_append_of_length_le (by simp)]
      simp

theorem keeps_append (h : Inv s nodes a) {i j : ι} (hij : i ≠ j) {xs ys : List α} (hxs : a i = some xs)
    (hys : a j = some ys) (happend : AppendsNodes s (.append i j)) :
    Keeps s (.append i j) (Function.update (Function.update a j (some [])) i (some (xs ++ ys))) := by
  obtain ⟨l, hl, howns, rfl⟩ := h.get hxs
  obtain ⟨other, hother, howns', rfl⟩ := h.get hys
  have hnodup : (addrs (nodes i ++ nodes j)).Nodup := by
    rw [addrs_append]
    exact (h.nodup i).append (h.nodup j) fun p hp hp' => h.apart i j hij p hp hp'
  have hne : l.tail ≠ none → other.head ≠ none := by
    simpa only [AppendsNodes, hl, hother, Option.bind_some] using happend
  obtain ⟨heap', l', happ, howns'', hframe⟩ := append_owns howns howns' hnodup hne
  have hclear := inv_clear h j empty rfl
  refine ⟨_, _, ?_, inv_set hclear i heap' (some l') (nodes i ++ nodes j)
    (fun _ h' => Option.some.inj h' ▸ howns'') (fun h' => absurd h' (by simp)) hnodup ?_ ?_ (by simp)⟩
  · simp only [step, hl, hother, Option.bind_some, if_neg hij, happ, Option.map_some]
    rfl
  · intro p hp k hk
    by_cases hkj : k = j
    · subst hkj
      rw [Function.update_self]
      exact List.not_mem_nil
    · rw [Function.update_of_ne hkj]
      rw [addrs_append] at hp
      rcases List.mem_append.mp hp with hp | hp
      · exact h.apart i k (Ne.symm hk) p hp
      · exact h.apart j k (Ne.symm hkj) p hp
  · intro k hk p hp
    by_cases hkj : k = j
    · subst hkj
      rw [Function.update_self] at hp
      exact absurd hp List.not_mem_nil
    · rw [Function.update_of_ne hkj] at hp
      exact hframe p (h.apart k i hk p hp)

theorem keeps_moveConstruct (h : Inv s nodes a) {i j : ι} {ys : List α} (hi : a i = none)
    (hys : a j = some ys) :
    Keeps s (.moveConstruct i j) (Function.update (Function.update a j (some [])) i (some ys)) := by
  obtain ⟨other, hother, howns, rfl⟩ := h.get hys
  have hnone : s.lists i = none := (h.none_iff i).mp hi
  refine ⟨_, _, ?_, inv_set (inv_clear h j empty rfl) i s.heap (some other) (nodes j)
    (fun _ h' => Option.some.inj h' ▸ howns) (fun h' => absurd h' (by simp)) (h.nodup j) ?_
    (fun _ _ _ _ => rfl) (by simp)⟩
  · simp only [step, hother, Option.bind_some, if_pos hnone]
    rfl
  · intro p hp k hk
    by_cases hkj : k = j
    · subst hkj
      rw [Function.update_self]
      exact List.not_mem_nil
    · rw [Function.update_of_ne hkj]
      exact h.apart j k (Ne.symm hkj) p hp

theorem keeps_moveAssign (h : Inv s nodes a) {i j : ι} {xs ys : List α} (hxs : a i = some xs)
    (hys : a j = some ys) :
    Keeps s (.moveAssign i j) (Function.update (Function.update a i (some ys)) j (some xs)) := by
  obtain ⟨l, hl, -, -⟩ := h.get hxs
  obtain ⟨other, hother, -, -⟩ := h.get hys
  refine ⟨{ s with lists := s.lists ∘ Equiv.swap i j }, nodes ∘ Equiv.swap i j, ?_, ?_⟩
  · simp only [step, hl, hother, Option.bind_some, Option.map_some, State.set]
    rw [← hl, ← hother, update_swap]
  · rw [← hxs, ← hys, update_swap]
    exact inv_swap h i j

theorem keeps_release (h : Inv s nodes a) {i : ι} {xs : List α} (hxs : a i = some xs)
    (o : Option (LinkedList Addr)) (ho : o = some empty ∨ o = none) :
    ∃ l heap, s.lists i = some l ∧ release s.heap l.head = some heap ∧
      Inv ({ s with heap }.set i o) (Function.update nodes i []) (Function.update a i (o.map fun _ => [])) := by
  obtain ⟨l, hl, howns, -⟩ := h.get hxs
  obtain ⟨heap, hrelease, hframe⟩ := release_owns howns.seg (h.nodup i)
  refine ⟨l, heap, hl, hrelease,
    inv_shrink h i (fun l' h' => ?_) (fun _ => rfl) (List.nil_sublist _) hframe rfl⟩
  rcases ho with rfl | rfl
  · exact Option.some.inj h' ▸ owns_empty
  · exact absurd h' (by simp)

/-- **One step** of the lists is one step of the sequences. -/
theorem step_inv (h : Inv s nodes a) {o : Op ι Addr α} (ha : specStep a o = some a')
    (hmalloc : MallocFresh s o) (happend : AppendsNodes s o) : Keeps s o a' := by
  cases o with
  | construct i =>
    simp only [specStep] at ha
    split at ha
    · rename_i hi
      obtain rfl := Option.some.inj ha
      exact ⟨_, _, if_pos ((h.none_iff i).mp hi), inv_clear h i empty rfl⟩
    · exact absurd ha (by simp)
  | push i p v =>
    obtain ⟨xs, hxs, rfl⟩ := Option.map_eq_some_iff.mp ha
    exact keeps_push h hxs hmalloc
  | popFront i =>
    obtain ⟨xs, hxs, ha⟩ := Option.bind_eq_some_iff.mp ha
    split at ha
    · exact absurd ha (by simp)
    · rename_i hne
      exact Option.some.inj ha ▸ keeps_popFront h hxs hne
  | remove i idx =>
    obtain ⟨xs, hxs, ha⟩ := Option.bind_eq_some_iff.mp ha
    split at ha
    · rename_i hidx
      exact Option.some.inj ha ▸ keeps_remove h hxs hidx
    · exact absurd ha (by simp)
  | append i j =>
    obtain ⟨xs, hxs, ha⟩ := Option.bind_eq_some_iff.mp ha
    obtain ⟨ys, hys, ha⟩ := Option.bind_eq_some_iff.mp ha
    split at ha
    · exact absurd ha (by simp)
    · rename_i hij
      exact Option.some.inj ha ▸ keeps_append h hij hxs hys happend
  | moveConstruct i j =>
    obtain ⟨ys, hys, ha⟩ := Option.bind_eq_some_iff.mp ha
    split at ha
    · rename_i hi
      exact Option.some.inj ha ▸ keeps_moveConstruct h hi hys
    · exact absurd ha (by simp)
  | moveAssign i j =>
    obtain ⟨xs, hxs, ha⟩ := Option.bind_eq_some_iff.mp ha
    obtain ⟨ys, hys, rfl⟩ := Option.map_eq_some_iff.mp ha
    exact keeps_moveAssign h hxs hys
  | release i =>
    obtain ⟨xs, hxs, rfl⟩ := Option.map_eq_some_iff.mp ha
    obtain ⟨l, heap, hl, hrelease, hinv⟩ := keeps_release h hxs (some empty) (Or.inl rfl)
    exact ⟨_, _, by simp only [step, hl, Option.bind_some, hrelease, Option.map_some], hinv⟩
  | destroy i =>
    obtain ⟨xs, hxs, rfl⟩ := Option.map_eq_some_iff.mp ha
    obtain ⟨l, heap, hl, hrelease, hinv⟩ := keeps_release h hxs none (Or.inr rfl)
    exact ⟨_, _, by simp only [step, hl, Option.bind_some, hrelease, Option.map_some], hinv⟩

/-- An empty list appended to one that has nodes leaves that without a tail. -/
theorem append_empty_breaks (h : Inv s nodes a) {o : Op ι Addr α} (ha : specStep a o = some a')
    (happend : ¬ AppendsNodes s o) (hs : step s o = some s') : ¬ Refines s' a' := by
  cases o with
  | append i j =>
    obtain ⟨xs, hxs, ha⟩ := Option.bind_eq_some_iff.mp ha
    obtain ⟨ys, hys, ha⟩ := Option.bind_eq_some_iff.mp ha
    obtain ⟨l, hl, howns, rfl⟩ := h.get hxs
    obtain ⟨other, hother, howns', rfl⟩ := h.get hys
    simp only [AppendsNodes, hl, hother, Option.bind_some, not_forall, not_not] at happend
    obtain ⟨htail, hhead⟩ := happend
    split at ha
    · exact absurd ha (by simp)
    · rename_i hij
      obtain ⟨t, ht⟩ := Option.ne_none_iff_exists'.mp htail
      have hnodes : nodes i ≠ [] := fun hnil => by
        rw [howns.tail, hnil] at ht
        exact absurd ht (by simp)
      have hnil : nodes j = [] := by
        have hseg := howns'.seg
        rw [hhead] at hseg
        cases hn : nodes j with
        | nil => rfl
        | cons x zs =>
          rw [hn] at hseg
          exact absurd hseg.1 (by simp)
      have hnull : other.tail = none := by rw [howns'.tail, hnil]; rfl
      simp only [step, hl, hother, Option.bind_some, if_neg hij, append, ht, Option.map_map] at hs
      obtain ⟨heap, -, rfl⟩ := Option.map_eq_some_iff.mp hs
      obtain rfl := Option.some.inj ha
      intro hrefines
      have hshows := (hrefines i).2 _ ((nodes i).map Prod.snd ++ (nodes j).map Prod.snd)
        (Function.update_self i _ _) (Function.update_self i _ _)
      have hempty := hshows.tail_null.mp hnull
      exact hnodes (by simpa using (List.append_eq_nil_iff.mp hempty).1)
  | construct | push | popFront | remove | moveConstruct | moveAssign | release | destroy =>
    exact absurd trivial happend

/-- No variable holds a list, and the heap is empty. -/
def init : State ι Addr α := ⟨∅, fun _ => none⟩

omit [DecidableEq ι] in
theorem inv_init : Inv (init : State ι Addr α) (fun _ => []) fun _ => none where
  owns i l hl := absurd hl (by simp [init])
  dead _ _ := rfl
  nodup _ := List.nodup_nil
  apart _ _ _ _ hp := absurd hp List.not_mem_nil
  values _ := rfl

theorem run_inv {ops : List (Op ι Addr α)} (hspec : run specStep ops (fun _ => none) = some a)
    (hgood : Meets step GoodStep ops init) :
    ∃ s, run step ops init = some s ∧ ∃ nodes, Inv s nodes a :=
  run_refines_of_meets (R := fun s a => ∃ nodes, Inv s nodes a)
    (fun s o a a' hR hC ha => by
      obtain ⟨nodes, hinv⟩ := hR
      obtain ⟨s', nodes', hstep, hinv'⟩ := step_inv hinv ha hC.1 hC.2
      exact ⟨s', hstep, nodes', hinv'⟩)
    ops ⟨fun _ => [], inv_init⟩ hgood hspec

/-- **The lists are sequences** in every run in which no empty list is appended
to one that has elements. -/
theorem lists_refine {ops : List (Op ι Addr α)} (hspec : run specStep ops (fun _ => none) = some a)
    (hgood : Meets step GoodStep ops init) : ∃ s, run step ops init = some s ∧ Refines s a := by
  obtain ⟨s, hrun, nodes, hinv⟩ := run_inv hspec hgood
  exact ⟨s, hrun, hinv.refines⟩

end Runs

/-- A list of two elements takes over one of one element, and gives up two. -/
def spliceAndRemove : List (Op Bool ℕ ℕ) :=
  [.construct false, .construct true, .push false 1 7, .push false 2 8, .push true 3 9, .append false true,
    .remove false 2, .popFront false]

/-- An empty list is appended to a list of one element. -/
def appendEmpty : List (Op Bool ℕ ℕ) := [.construct false, .construct true, .push false 1 7, .append false true]

theorem lists_refine_splice : ∃ a s, run specStep spliceAndRemove (fun _ => none) = some a ∧
    a false = some [8] ∧ run step spliceAndRemove init = some s ∧ Refines s a := by
  obtain ⟨s, hs⟩ := lists_refine (show run specStep spliceAndRemove (fun _ => none) = some _ from rfl)
    (by decide)
  exact ⟨_, s, rfl, rfl, hs⟩

/-- The list has a head and no tail. -/
theorem append_empty_loses_tail : ∃ s a, run step appendEmpty init = some s ∧
    run specStep appendEmpty (fun _ => none) = some a ∧ Meets step MallocFresh appendEmpty init ∧
    ¬ Refines s a := by
  refine ⟨_, _, rfl, rfl, by decide, fun h => ?_⟩
  have hshows := (h false).2 ⟨some 1, none, 1⟩ [7] rfl rfl
  exact absurd (hshows.tail_null.mp rfl) (by decide)

end LinkedList
end WingOS
