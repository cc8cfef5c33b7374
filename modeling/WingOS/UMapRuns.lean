/-
# The hash map as a finite map

Whatever is done to a `UMap` from the empty one on, as long as no key is
inserted that is there and no key is moved out that is not, it is the finite
map that the same operations make (`umap_refines`): every lookup agrees, `count`
is the number of keys, and a loop over the map visits each entry once.

A key that is inserted again is in the map twice, in the build without
`NDEBUG`. So `count` is the number of the keys, and the two builds agree, in
those runs only in which every inserted key is new (`inserts_right_iff`).

Key definitions: `UMap.step`, `UMap.specStep`, `UMap.Refines`, `UMap.Agrees`,
`UMap.bothStep`, `UMap.InsertsRight`.
Key theorems: `step_refines`, `umap_refines`, `insertsRight_iff`, `inserts_right_iff`.
-/
import Mathlib.Data.Finmap
import WingOS.UMapIterator
import WingOS.Lib.Run

namespace WingOS

/-- What is done to a map. -/
inductive UMapOp (K V : Type*)
  | insert (k : K) (v : V)
  | remove (k : K)
  | moveOut (k : K)
  | clear

namespace UMap

variable {K V : Type*} [DecidableEq K] (hash : K → ℕ)

/-- One operation, with the code that `insert` has in the build, and the values
that `moveOut` has given; `none` is `unreachable$`. -/
def stepWith (ins : UMap K V → K → V → UMap K V) (s : UMap K V × List V) :
    UMapOp K V → Option (UMap K V × List V)
  | .insert k v => some (ins s.1 k v, s.2)
  | .remove k => some (s.1.remove hash k, s.2)
  | .moveOut k => (s.1.moveOut hash k).map fun r => (r.2, s.2 ++ [r.1])
  | .clear => some (s.1.clear, s.2)

def step : UMap K V × List V → UMapOp K V → Option (UMap K V × List V) :=
  stepWith hash (insert hash)

/-- One operation on a finite map; `none` when a key is inserted that is there,
or moved out that is not. -/
def specStep (s : Finmap (fun _ : K => V) × List V) :
    UMapOp K V → Option (Finmap (fun _ : K => V) × List V)
  | .insert k v => if (s.1.lookup k).isSome then none else some (s.1.insert k v, s.2)
  | .remove k => some (s.1.erase k, s.2)
  | .moveOut k => (s.1.lookup k).map fun v => (s.1.erase k, s.2 ++ [v])
  | .clear => some (∅, s.2)

structure Refines (m : UMap K V) (f : Finmap fun _ : K => V) : Prop where
  ok : Ok hash m
  lookup : ∀ k, m.get hash k = f.lookup k
  count : m.count = m.entries.length

/-- **The map is `f`** for all that a caller can see of it. -/
structure Agrees (m : UMap K V) (f : Finmap fun _ : K => V) : Prop where
  has : ∀ k, m.has hash k = true ↔ k ∈ f
  find : ∀ k, m.find hash k = f.lookup k
  get : ∀ k, m.get hash k = f.lookup k
  count : m.count = f.keys.card
  visits : ∀ fuel, m.count < fuel → ∃ es, m.visits fuel m.begin = some es ∧
    (es.map Prod.fst).Nodup ∧ ∀ k v, (k, v) ∈ es ↔ f.lookup k = some v

variable {hash} {m : UMap K V} {f : Finmap fun _ : K => V} {k : K} {v : V}

omit [DecidableEq K] in
theorem count_maybeRehash (m : UMap K V) : (m.maybeRehash hash).count = m.count := by
  unfold maybeRehash
  split <;> rfl

omit [DecidableEq K] in
theorem count_insert : (m.insert hash k v).count = m.count + 1 := count_maybeRehash _

/-- `moveOut` is `remove` with the value. -/
theorem moveOut_eq (m : UMap K V) (k : K) :
    m.moveOut hash k = (m.get hash k).map fun v => (v, m.remove hash k) := by
  unfold moveOut get remove
  cases (m.bucket hash k).find? fun e => e.1 = k <;> rfl

theorem remove_of_none (h : m.get hash k = none) : m.remove hash k = m := by
  unfold get at h
  unfold remove
  rw [Option.map_eq_none_iff.mp h]

theorem count_remove (h : m.get hash k = some v) : (m.remove hash k).count = m.count - 1 := by
  obtain ⟨e, he, -⟩ := Option.map_eq_some_iff.mp h
  unfold remove
  rw [he]

/-- **Removal**: the key is gone, whether or not it was there. -/
theorem remove_spec (h : Ok hash m) (hcount : m.count = m.entries.length) (k : K) :
    Ok hash (m.remove hash k) ∧ (m.remove hash k).count = (m.remove hash k).entries.length ∧
      ∀ k', (m.remove hash k).get hash k' = if k' = k then none else m.get hash k' := by
  cases hget : m.get hash k with
  | none =>
    rw [remove_of_none hget]
    refine ⟨h, hcount, fun k' => ?_⟩
    by_cases hk : k' = k
    · rw [if_pos hk, hk, hget]
    · rw [if_neg hk]
  | some v =>
    have hmove : m.moveOut hash k = some (v, m.remove hash k) := by rw [moveOut_eq, hget]; rfl
    obtain ⟨m', hm', hok, hlookup⟩ := get_moveOut h hget
    obtain ⟨m'', hm'', -, hperm⟩ := moveOut_spec h hget
    cases hmove.symm.trans hm'
    cases hmove.symm.trans hm''
    refine ⟨hok, ?_, hlookup⟩
    have hlength := hperm.length_eq
    rw [List.length_cons] at hlength
    rw [count_remove hget, hcount]
    omega

theorem refines_empty : Refines hash ({} : UMap K V) ∅ :=
  ⟨ok_empty hash, fun _ => rfl, rfl⟩

theorem Refines.insert (h : Refines hash m f) (hk : m.get hash k = none) (v : V) :
    Refines hash (m.insert hash k v) (f.insert k v) := by
  refine ⟨ok_insert h.ok hk v, fun k' => ?_, ?_⟩
  · rw [get_insert h.ok hk]
    by_cases hkk : k' = k
    · rw [if_pos hkk, hkk, Finmap.lookup_insert]
    · rw [if_neg hkk, Finmap.lookup_insert_of_ne f hkk, h.lookup]
  · obtain ⟨-, hperm⟩ := insert_spec h.ok.placed (k := k) v
    rw [count_insert, hperm.length_eq, List.length_cons, h.count]

theorem Refines.remove (h : Refines hash m f) (k : K) :
    Refines hash (m.remove hash k) (f.erase k) := by
  obtain ⟨hok, hcount, hlookup⟩ := remove_spec h.ok h.count k
  refine ⟨hok, fun k' => ?_, hcount⟩
  rw [hlookup]
  by_cases hkk : k' = k
  · rw [if_pos hkk, hkk, Finmap.lookup_erase]
  · rw [if_neg hkk, Finmap.lookup_erase_ne hkk, h.lookup]

/-- **One operation** on the map is the same operation on the finite map. -/
theorem step_refines {vs : List V} {op : UMapOp K V} {t : Finmap (fun _ : K => V) × List V}
    (h : Refines hash m f) (hs : specStep (f, vs) op = some t) :
    ∃ m', step hash (m, vs) op = some (m', t.2) ∧ Refines hash m' t.1 := by
  cases op with
  | insert k v =>
    dsimp only [specStep] at hs
    obtain ⟨hthere, hs⟩ := Option.ite_none_left_eq_some.mp hs
    cases hs
    have hk : m.get hash k = none := by
      rw [h.lookup]
      exact Option.not_isSome_iff_eq_none.mp hthere
    exact ⟨_, rfl, h.insert hk v⟩
  | remove k =>
    cases hs
    exact ⟨_, rfl, h.remove k⟩
  | moveOut k =>
    obtain ⟨v, hv, rfl⟩ := Option.map_eq_some_iff.mp hs
    refine ⟨m.remove hash k, ?_, h.remove k⟩
    show (m.moveOut hash k).map _ = _
    rw [moveOut_eq, h.lookup, hv]
    rfl
  | clear =>
    cases hs
    exact ⟨_, rfl, refines_empty⟩

/-- The keys of a map that has each once. -/
theorem Refines.keys_eq (h : Refines hash m f) : f.keys = (m.entries.map Prod.fst).toFinset := by
  ext k
  rw [Finmap.mem_keys, Finmap.mem_iff, List.mem_toFinset, List.mem_map]
  constructor
  · intro ⟨v, hv⟩
    exact ⟨(k, v), (get_eq_some h.ok).mp ((h.lookup k).trans hv), rfl⟩
  · intro ⟨e, he, hk⟩
    refine ⟨e.2, ?_⟩
    rw [← h.lookup, ← hk]
    exact (get_eq_some h.ok).mpr he

theorem Refines.agrees (h : Refines hash m f) : Agrees hash m f where
  has k := by
    rw [has_eq_true h.ok, h.lookup, Finmap.mem_iff]
  find := h.lookup
  get := h.lookup
  count := by
    rw [h.keys_eq, List.toFinset_card_of_nodup h.ok.keys_nodup, List.length_map, h.count]
  visits fuel hfuel := by
    rw [h.count] at hfuel
    refine ⟨m.entries, visits_begin hfuel, h.ok.keys_nodup, fun k v => ?_⟩
    rw [← h.lookup, get_eq_some h.ok]

/-- **The map refines a finite map**, and `moveOut` gives the values stored. -/
theorem umap_refines (hash : K → ℕ) (ops : List (UMapOp K V)) (f : Finmap fun _ : K => V)
    (vs : List V) (hrun : Lib.run specStep ops (∅, []) = some (f, vs)) :
    ∃ m, Lib.run (step hash) ops ({}, []) = some (m, vs) ∧ Agrees hash m f := by
  have hsim : ∀ (s : Finmap (fun _ : K => V) × List V) (o : UMapOp K V)
      (s' : Finmap (fun _ : K => V) × List V) (t : UMap K V × List V),
      (Refines hash t.1 s.1 ∧ t.2 = s.2) → specStep s o = some s' →
        ∃ t', step hash t o = some t' ∧ Refines hash t'.1 s'.1 ∧ t'.2 = s'.2 := by
    intro s o s' t ⟨hR, hvs⟩ hs
    obtain ⟨m', hm', hR'⟩ := step_refines hR hs
    refine ⟨(m', s'.2), ?_, hR', rfl⟩
    rw [← hm', ← hvs]
  obtain ⟨⟨m, vs'⟩, hm, hR, rfl⟩ := Lib.run_simulates hsim ops (t := ({}, [])) ⟨refines_empty, rfl⟩ hrun
  exact ⟨m, hm, hR.agrees⟩

/-- Three keys with one hash; one is removed and inserted again, one is moved out. -/
theorem umap_refines_three :
    ∃ (f : Finmap fun _ : ℕ => ℕ) (m : UMap ℕ ℕ), Lib.run (step fun _ => 3)
      [.insert 1 10, .insert 2 20, .insert 3 30, .remove 1, .insert 1 11, .moveOut 2] ({}, []) =
        some (m, [20]) ∧ Agrees (fun _ => 3) m f := by
  obtain ⟨m, hrun, hm⟩ := umap_refines (fun _ => 3)
    [.insert 1 10, .insert 2 20, .insert 3 30, .remove 1, .insert 1 11, .moveOut 2] _ [20] rfl
  exact ⟨_, m, hrun, hm⟩

/-! ### Keys that are inserted again -/

variable (hash)

/-- The two builds side by side. -/
def bothStep (s : (UMap K V × List V) × (UMap K V × List V)) (op : UMapOp K V) :
    Option ((UMap K V × List V) × (UMap K V × List V)) :=
  (stepWith hash (insert hash) s.1 op).bind fun a =>
    (stepWith hash (insertNdebug hash) s.2 op).map fun b => (a, b)

/-- What is true after an operation: a key that was inserted has its value, a
key that was removed is gone, `count` is the number of the keys, and the build
with `NDEBUG` has the same. -/
structure InsertsRight (op : UMapOp K V) (s : (UMap K V × List V) × (UMap K V × List V)) : Prop where
  inserted : ∀ k v, op = .insert k v → s.1.1.find hash k = some v
  removed : ∀ k, op = .remove k → s.1.1.has hash k = false
  count : s.1.1.count = (s.1.1.entries.map Prod.fst).toFinset.card
  same_find : ∀ k, s.1.1.find hash k = s.2.1.find hash k
  same_count : s.1.1.count = s.2.1.count
  same_moved : s.1.2 = s.2.2

/-- The operation inserts no key that the map has. -/
def InsertsNew (m : UMap K V) (op : UMapOp K V) : Prop :=
  ∀ k v, op = .insert k v → m.has hash k = false

/-- Where the builds stand as long as every key was new. -/
structure InStep (s : (UMap K V × List V) × (UMap K V × List V)) : Prop where
  same : s.1 = s.2
  ok : Ok hash s.1.1
  count : s.1.1.count = s.1.1.entries.length

variable {hash}

theorem has_eq_false (h : Ok hash m) : m.has hash k = false ↔ m.get hash k = none := by
  rw [Bool.eq_false_iff, ne_eq, has_eq_true h, Option.eq_none_iff_forall_ne_some, not_exists]

/-- A new key is inserted by the same code in both builds. -/
theorem insertNdebug_eq (hk : m.get hash k = none) (v : V) :
    m.insertNdebug hash k v = m.insert hash k v := by
  have hfind : (m.bucket hash k).find? (fun e => e.1 = k) = none := Option.map_eq_none_iff.mp hk
  unfold insertNdebug insert
  dsimp only
  by_cases hzero : m.buckets.length = 0
  · rw [if_pos hzero]
    have hempty : (List.replicate 16 ([] : List (K × V))).getD (hash k % 16) [] = [] := by
      rw [List.getD_eq_getElem?_getD, List.getElem?_replicate]
      split <;> rfl
    rw [List.length_replicate, hempty]
    rfl
  · rw [if_neg hzero]
    have hidx : (m.buckets.getD (hash k % m.buckets.length) []).findIdx? (fun e => e.1 = k) = none := by
      rw [List.findIdx?_eq_none_iff]
      intro e he
      simpa using List.find?_eq_none.mp hfind e he
    rw [hidx]

/-- An inserted key that is there already makes `count` too large. -/
theorem count_ne_of_there (h : Ok hash m) (hcount : m.count = m.entries.length)
    (hk : m.get hash k ≠ none) (v : V) : (m.insert hash k v).count ≠
      ((m.insert hash k v).entries.map Prod.fst).toFinset.card := by
  obtain ⟨-, hperm⟩ := insert_spec h.placed (k := k) v
  have hmem : k ∈ m.entries.map Prod.fst := by
    by_contra hnot
    exact hk ((get_eq_none h).mpr hnot)
  have hkeys : ((m.insert hash k v).entries.map Prod.fst).toFinset = (m.entries.map Prod.fst).toFinset := by
    rw [List.toFinset_eq_of_perm _ _ (hperm.map Prod.fst), List.map_cons, List.toFinset_cons]
    exact Finset.insert_eq_self.mpr (List.mem_toFinset.mpr hmem)
  rw [hkeys, List.toFinset_card_of_nodup h.keys_nodup, List.length_map, count_insert, hcount]
  exact Nat.succ_ne_self _

/-- One operation that inserts no key again keeps the builds together, and does
what it should. -/
theorem inStep_step {s s' : (UMap K V × List V) × (UMap K V × List V)} {op : UMapOp K V}
    (h : InStep hash s) (hnew : InsertsNew hash s.1.1 op) (hs : bothStep hash s op = some s') :
    InStep hash s' ∧ InsertsRight hash op s' := by
  obtain ⟨⟨m, vs⟩, t⟩ := s
  obtain rfl : (m, vs) = t := h.same
  have hdone : ∀ m' : UMap K V, ∀ vs' : List V, Ok hash m' → m'.count = m'.entries.length →
      (∀ k v, op = .insert k v → m'.find hash k = some v) →
      (∀ k, op = .remove k → m'.has hash k = false) →
      InStep hash ((m', vs'), (m', vs')) ∧ InsertsRight hash op ((m', vs'), (m', vs')) := by
    intro m' vs' hok hcount hins hrem
    refine ⟨⟨rfl, hok, hcount⟩, ⟨hins, hrem, ?_, fun _ => rfl, rfl, rfl⟩⟩
    rw [List.toFinset_card_of_nodup hok.keys_nodup, List.length_map]
    exact hcount
  have hok : Ok hash m := h.ok
  have hcount : m.count = m.entries.length := h.count
  cases op with
  | insert k v =>
    have hk : m.get hash k = none := (has_eq_false hok).mp (hnew k v rfl)
    dsimp only [bothStep, stepWith, Option.bind_some, Option.map_some] at hs
    rw [insertNdebug_eq hk] at hs
    cases hs
    refine hdone _ _ (ok_insert hok hk v) ?_ ?_ nofun
    · obtain ⟨-, hperm⟩ := insert_spec hok.placed (k := k) v
      rw [count_insert, hperm.length_eq, List.length_cons, hcount]
    · intro k' v' heq
      cases heq
      show (m.insert hash k v).get hash k = some v
      rw [get_insert hok hk, if_pos rfl]
  | remove k =>
    cases hs
    obtain ⟨hok', hcount', hlookup⟩ := remove_spec hok hcount k
    refine hdone _ _ hok' hcount' nofun ?_
    intro k' heq
    cases heq
    rw [has_eq_false hok', hlookup, if_pos rfl]
  | moveOut k =>
    dsimp only [bothStep, stepWith] at hs
    rw [moveOut_eq] at hs
    cases hget : m.get hash k with
    | none =>
      rw [hget] at hs
      cases hs
    | some v =>
      rw [hget] at hs
      cases hs
      obtain ⟨hok', hcount', -⟩ := remove_spec hok hcount k
      exact hdone _ _ hok' hcount' nofun nofun
  | clear =>
    cases hs
    exact hdone {} _ (ok_empty hash) rfl nofun nofun

/-- **One operation** does what it should if and only if it inserts no key again. -/
theorem insertsRight_iff {s : (UMap K V × List V) × (UMap K V × List V)} {op : UMapOp K V}
    (h : InStep hash s) :
    (∀ s', bothStep hash s op = some s' → InsertsRight hash op s') ↔ InsertsNew hash s.1.1 op := by
  constructor
  · intro hright k v hop
    subst hop
    rw [has_eq_false h.ok]
    by_contra hk
    exact count_ne_of_there h.ok h.count hk v (hright _ rfl).count
  · intro hnew s' hs
    exact (inStep_step h hnew hs).2

/-- **Runs of the map** from the empty one: every operation leaves what it
should, in the build without `NDEBUG`, if and only if every inserted key is new. -/
theorem inserts_right_iff (hash : K → ℕ) (ops : List (UMapOp K V)) :
    Lib.Meets (bothStep hash) (fun s op => ∀ s', bothStep hash s op = some s' → InsertsRight hash op s')
        ops (({}, []), ({}, [])) ↔
      Lib.Meets (bothStep hash) (fun s op => InsertsNew hash s.1.1 op) ops (({}, []), ({}, [])) :=
  Lib.meets_congr_of_invariant (P := InStep hash) (fun _ _ h => insertsRight_iff h)
    (fun _ _ _ h hnew hs => (inStep_step h hnew hs).1) ops ⟨rfl, ok_empty hash, rfl⟩

/-- A key that is inserted twice: the old value is found, also after `remove`,
and `count` is 2. -/
theorem inserted_twice :
    let s := Lib.run (bothStep fun k : ℕ => k) [.insert 5 1, .insert 5 2] (({}, []), ({}, []))
    (s.map fun s => (s.1.1.find (fun k => k) 5, s.1.1.count, (s.1.1.remove (fun k => k) 5).has (fun k => k) 5)) =
        some (some 1, 2, true) ∧
      (s.map fun s => (s.2.1.find (fun k => k) 5, s.2.1.count)) = some (some 2, 1) ∧
      ¬ Lib.Meets (bothStep fun k : ℕ => k)
        (fun s op => ∀ s', bothStep (fun k => k) s op = some s' → InsertsRight (fun k => k) op s')
        [.insert 5 1, .insert 5 2] (({}, []), ({}, [])) := by
  refine ⟨by decide, by decide, fun hmeets => ?_⟩
  have hright := (hmeets.2 _ rfl).1 _ rfl
  exact absurd (hright.inserted 5 2 rfl) (by decide)

end UMap
end WingOS
