/-
# The hash map

`fc::UMap` (`libcore/ds/umap.hpp`): buckets of entries, an entry in the bucket
of its key's hash. `insert` does not look for the key (the loop that does is
compiled with `NDEBUG` only, which the build does not define; it is in
`insertNdebug`), so it is up to the callers that no key is in the map twice.

A map is what its entries are, in any order (`entries`): `insert` adds an entry
and may spread all of them over twice as many buckets, `moveOut` takes one
away, and `get` finds the one entry of a key (`get_insert`, `get_moveOut`).

Key definitions: `UMap`, `UMap.insert`, `UMap.moveOut`, `UMap.remove`, `UMap.Ok`.
Key theorems: `ok_insert`, `get_insert`, `ok_moveOut`, `get_moveOut`.
-/
import Mathlib.Data.List.Nodup
import Mathlib.Data.List.Perm.Basic
import Mathlib.Tactic.Common

namespace WingOS

structure UMap (K V : Type*) where
  buckets : List (List (K × V)) := []
  count : ℕ := 0

namespace UMap

variable {K V : Type*} (hash : K → ℕ)

/-- The bucket of a key; it is empty when there are no buckets. -/
def bucket (m : UMap K V) (k : K) : List (K × V) := m.buckets.getD (hash k % m.buckets.length) []

def has [DecidableEq K] (m : UMap K V) (k : K) : Bool := (m.bucket hash k).any fun e => e.1 = k

/-- `operator[]`; `none` is `unreachable$`. -/
def get [DecidableEq K] (m : UMap K V) (k : K) : Option V := ((m.bucket hash k).find? fun e => e.1 = k).map Prod.snd

/-- `_buckets[h].push(entry)`, where `h` is the hash of the key. -/
def push (buckets : List (List (K × V))) (e : K × V) : List (List (K × V)) :=
  buckets.modify (hash e.1 % buckets.length) (· ++ [e])

/-- The loop of `maybe_rehash`: each bucket is emptied from its end. -/
def spread (buckets : List (List (K × V))) : List (List (K × V)) :=
  (buckets.flatMap List.reverse).foldl (push hash) (List.replicate (buckets.length * 2) [])

def maybeRehash (m : UMap K V) : UMap K V :=
  if m.count / m.buckets.length < 4 then m else { m with buckets := spread hash m.buckets }

def insert (m : UMap K V) (k : K) (v : V) : UMap K V :=
  let buckets := if m.buckets.length = 0 then List.replicate 16 [] else m.buckets
  maybeRehash hash { buckets := push hash buckets (k, v), count := m.count + 1 }

/-- `moveOut`; `none` is `unreachable$`. -/
def moveOut [DecidableEq K] (m : UMap K V) (k : K) : Option (V × UMap K V) :=
  match (m.bucket hash k).find? fun e => e.1 = k with
  | none => none
  | some e => some (e.2,
      { buckets := m.buckets.modify (hash k % m.buckets.length) (·.eraseP fun e => e.1 = k)
        count := m.count - 1 })

/-- `remove`: the first entry of the key, when there is one. -/
def remove [DecidableEq K] (m : UMap K V) (k : K) : UMap K V :=
  match (m.bucket hash k).find? fun e => e.1 = k with
  | none => m
  | some _ =>
    { buckets := m.buckets.modify (hash k % m.buckets.length) (·.eraseP fun e => e.1 = k)
      count := m.count - 1 }

/-- `clear` drops the buckets. -/
def clear (m : UMap K V) : UMap K V := { m with buckets := [], count := 0 }

/-- `find`; `none` is the empty `Optional`. -/
def find [DecidableEq K] (m : UMap K V) (k : K) : Option V :=
  ((m.bucket hash k).find? fun e => e.1 = k).map Prod.snd

/-- `insert` of a build with `NDEBUG`: the value of the first entry of the key
is replaced, when there is one. -/
def insertNdebug [DecidableEq K] (m : UMap K V) (k : K) (v : V) : UMap K V :=
  let buckets := if m.buckets.length = 0 then List.replicate 16 [] else m.buckets
  let h := hash k % buckets.length
  match (buckets.getD h []).findIdx? fun e => e.1 = k with
  | some i => { m with buckets := buckets.modify h (·.modify i fun e => (e.1, v)) }
  | none => maybeRehash hash { buckets := push hash buckets (k, v), count := m.count + 1 }

/-! ### Entries -/

/-- The entries, in the order of the iterator. -/
def entries (m : UMap K V) : List (K × V) := m.buckets.flatten

/-- Each entry is in the bucket of its key. -/
def Placed (buckets : List (List (K × V))) : Prop :=
  ∀ i b, buckets[i]? = some b → ∀ e ∈ b, hash e.1 % buckets.length = i

structure Ok (m : UMap K V) : Prop where
  placed : Placed hash m.buckets
  keys_nodup : (m.entries.map Prod.fst).Nodup

theorem ok_empty : Ok hash ({} : UMap K V) :=
  ⟨fun i b h => by simp at h, List.nodup_nil⟩

section Buckets

variable {hash} {bs : List (List (K × V))} {e : K × V} {k : K}

theorem flatten_modify_perm (f : List (K × V) → List (K × V)) (l r : List (K × V)) :
    ∀ {bs : List (List (K × V))} {i : ℕ} {b : List (K × V)}, bs[i]? = some b →
      (l ++ f b).Perm (r ++ b) → (l ++ (bs.modify i f).flatten).Perm (r ++ bs.flatten)
  | [], i, b, h, _ => by simp at h
  | c :: bs, 0, b, h, hperm => by
    simp only [List.getElem?_cons_zero, Option.some_inj] at h
    rw [List.modify_zero_cons, List.flatten_cons, List.flatten_cons, ← List.append_assoc,
      ← List.append_assoc, h]
    exact hperm.append_right _
  | c :: bs, i + 1, b, h, hperm => by
    rw [List.getElem?_cons_succ] at h
    rw [List.modify_succ_cons, List.flatten_cons, List.flatten_cons]
    have ih := (flatten_modify_perm f l r h hperm).append_left c
    refine ((List.perm_append_comm_assoc l c _).trans ih).trans (List.perm_append_comm_assoc c r _)

@[simp] theorem length_push : (push hash bs e).length = bs.length := by
  unfold push
  rw [List.length_modify]

/-- A bucket of a key exists. -/
theorem exists_bucket (hne : bs ≠ []) (k : K) : ∃ b, bs[hash k % bs.length]? = some b := by
  have hlt : hash k % bs.length < bs.length := Nat.mod_lt _ (List.length_pos_iff.mpr hne)
  exact ⟨_, List.getElem?_eq_getElem hlt⟩

theorem push_perm (hne : bs ≠ []) : (push hash bs e).flatten.Perm (e :: bs.flatten) := by
  obtain ⟨b, hb⟩ : ∃ b, bs[hash e.1 % bs.length]? = some b := exists_bucket hne e.1
  have hperm : ([] ++ (b ++ [e])).Perm ([e] ++ b) := by
    rw [List.nil_append]
    exact List.perm_append_comm
  exact flatten_modify_perm (· ++ [e]) [] [e] hb hperm

/-- A change of one bucket that adds no key of another. -/
theorem placed_modify (h : Placed hash bs) {f : List (K × V) → List (K × V)}
    (hf : ∀ b, ∀ e ∈ f b, e ∈ b ∨ hash e.1 % bs.length = hash k % bs.length) :
    Placed hash (bs.modify (hash k % bs.length) f) := by
  intro i b hb e he
  rw [List.length_modify]
  rw [List.getElem?_modify] at hb
  obtain ⟨c, hc, rfl⟩ := Option.map_eq_some_iff.mp hb
  split at he
  · rename_i hi
    rcases hf c e he with hmem | hhash
    · exact h i c hc e hmem
    · exact hhash.trans hi
  · exact h i c hc e he

theorem placed_push (h : Placed hash bs) : Placed hash (push hash bs e) := by
  unfold push
  refine placed_modify h fun b x hx => ?_
  rcases List.mem_append.mp hx with hx | hx
  · exact .inl hx
  · rw [List.mem_singleton.mp hx]
    exact .inr rfl

theorem placed_replicate (n : ℕ) : Placed hash (List.replicate n ([] : List (K × V))) := by
  intro i b hb e he
  rw [List.getElem?_replicate] at hb
  split at hb
  · rw [← Option.some.inj hb] at he
    cases he
  · cases hb

/-- Entries that are pushed one after the other. -/
theorem foldl_push : ∀ (es : List (K × V)) {bs : List (List (K × V))}, bs ≠ [] → Placed hash bs →
    Placed hash (es.foldl (push hash) bs) ∧
      (es.foldl (push hash) bs).flatten.Perm (es ++ bs.flatten)
  | [], bs, _, h => ⟨h, List.Perm.refl _⟩
  | e :: es, bs, hne, h => by
    have hne' : push hash bs e ≠ [] := by
      rw [← List.length_pos_iff, length_push]
      exact List.length_pos_iff.mpr hne
    obtain ⟨hplaced, hperm⟩ := foldl_push es hne' (placed_push h)
    refine ⟨hplaced, hperm.trans ?_⟩
    exact ((push_perm hne).append_left es).trans List.perm_middle

theorem flatMap_reverse_perm : ∀ bs : List (List (K × V)), (bs.flatMap List.reverse).Perm bs.flatten
  | [] => List.Perm.refl _
  | b :: bs => by
    rw [List.flatMap_cons, List.flatten_cons]
    exact (List.reverse_perm b).append (flatMap_reverse_perm bs)

theorem spread_spec (hne : bs ≠ []) :
    Placed hash (spread hash bs) ∧ (spread hash bs).flatten.Perm bs.flatten := by
  have hne' : List.replicate (bs.length * 2) ([] : List (K × V)) ≠ [] := by
    rw [← List.length_pos_iff, List.length_replicate]
    have := List.length_pos_iff.mpr hne
    omega
  have hempty : Placed hash (List.replicate (bs.length * 2) ([] : List (K × V))) := placed_replicate _
  obtain ⟨hplaced, hperm⟩ := foldl_push (bs.flatMap List.reverse) hne' hempty
  refine ⟨hplaced, hperm.trans ?_⟩
  rw [List.flatten_replicate_nil, List.append_nil]
  exact flatMap_reverse_perm bs

end Buckets

section Spec

variable {hash} {m : UMap K V} {k k' : K} {v : V}

/-- An entry is found in the bucket of its key only. -/
theorem mem_entries_iff (h : Placed hash m.buckets) (e : K × V) :
    e ∈ m.entries ↔ e ∈ m.bucket hash e.1 := by
  unfold entries bucket
  rw [List.mem_flatten]
  constructor
  · intro ⟨b, hb, he⟩
    obtain ⟨i, hi⟩ := List.mem_iff_getElem?.mp hb
    rw [List.getD_eq_getElem?_getD, h i b hi e he, hi]
    exact he
  · intro he
    rw [List.getD_eq_getElem?_getD] at he
    cases hb : m.buckets[hash e.1 % m.buckets.length]? with
    | none =>
      rw [hb] at he
      cases he
    | some b =>
      rw [hb] at he
      exact ⟨b, List.mem_of_getElem? hb, he⟩

/-- Two maps with the same entries. -/
theorem Ok.of_perm {m' : UMap K V} (hplaced : Placed hash m'.buckets) {es : List (K × V)}
    (hperm : m'.entries.Perm es) (hnodup : (es.map Prod.fst).Nodup) : Ok hash m' :=
  ⟨hplaced, (hperm.map Prod.fst).nodup_iff.mpr hnodup⟩

theorem insert_spec (h : Placed hash m.buckets) (v : V) :
    Placed hash (m.insert hash k v).buckets ∧ (m.insert hash k v).entries.Perm ((k, v) :: m.entries) := by
  have hstart : ∃ bs : List (List (K × V)), bs ≠ [] ∧ Placed hash bs ∧ bs.flatten = m.entries ∧
      m.insert hash k v = maybeRehash hash ⟨push hash bs (k, v), m.count + 1⟩ := by
    unfold insert entries
    by_cases hzero : m.buckets.length = 0
    · refine ⟨List.replicate 16 [], by simp, placed_replicate 16, ?_, by rw [if_pos hzero]⟩
      rw [List.length_eq_zero_iff.mp hzero, List.flatten_replicate_nil]
      rfl
    · exact ⟨m.buckets, fun hc => hzero (by rw [hc]; rfl), h, rfl, by rw [if_neg hzero]⟩
  obtain ⟨bs, hne, hplaced, hentries, heq⟩ := hstart
  have hne' : push hash bs (k, v) ≠ [] := by
    rw [← List.length_pos_iff, length_push]
    exact List.length_pos_iff.mpr hne
  rw [heq, ← hentries]
  unfold maybeRehash
  split
  · exact ⟨placed_push hplaced, push_perm hne⟩
  · have hspec : Placed hash (spread hash (push hash bs (k, v))) ∧
        (spread hash (push hash bs (k, v))).flatten.Perm (push hash bs (k, v)).flatten :=
      spread_spec hne'
    obtain ⟨hspread, hperm⟩ := hspec
    exact ⟨hspread, hperm.trans (push_perm hne)⟩

variable [DecidableEq K]

/-- **Lookup**: the one entry of a key. -/
theorem get_eq_some (h : Ok hash m) : m.get hash k = some v ↔ (k, v) ∈ m.entries := by
  unfold get
  constructor
  · intro hget
    obtain ⟨e, he, rfl⟩ := Option.map_eq_some_iff.mp hget
    have hk : e.1 = k := by simpa using List.find?_some he
    rw [mem_entries_iff h.placed]
    rw [← hk] at he ⊢
    exact List.mem_of_find?_eq_some he
  · intro hmem
    have hbucket := (mem_entries_iff h.placed _).mp hmem
    cases hfind : (m.bucket hash k).find? fun e => e.1 = k with
    | none => exact absurd (List.find?_eq_none.mp hfind (k, v) hbucket) (by simp)
    | some e =>
      have hk : e.1 = k := by simpa using List.find?_some hfind
      have he : e ∈ m.entries := by
        rw [mem_entries_iff h.placed, hk]
        exact List.mem_of_find?_eq_some hfind
      have heq : e = (k, v) := List.inj_on_of_nodup_map h.keys_nodup he hmem hk
      rw [heq]
      rfl

theorem has_eq_true (h : Ok hash m) : m.has hash k = true ↔ ∃ v, m.get hash k = some v := by
  unfold has
  rw [List.any_eq_true]
  constructor
  · intro ⟨e, he, hk⟩
    have hk : e.1 = k := by simpa using hk
    refine ⟨e.2, (get_eq_some h).mpr ?_⟩
    rw [← hk] at he ⊢
    exact (mem_entries_iff h.placed e).mpr he
  · intro ⟨v, hv⟩
    exact ⟨(k, v), (mem_entries_iff h.placed _).mp ((get_eq_some h).mp hv), by simp⟩

theorem get_eq_none (h : Ok hash m) : m.get hash k = none ↔ k ∉ m.entries.map Prod.fst := by
  rw [Option.eq_none_iff_forall_ne_some]
  constructor
  · intro hnone hmem
    obtain ⟨⟨k', v⟩, he, rfl⟩ := List.mem_map.mp hmem
    exact hnone v ((get_eq_some h).mpr he)
  · intro hnot v hv
    exact hnot (List.mem_map.mpr ⟨(k, v), (get_eq_some h).mp hv, rfl⟩)

/-- **Insertion** of a key that is not there. -/
theorem ok_insert (h : Ok hash m) (hk : m.get hash k = none) (v : V) : Ok hash (m.insert hash k v) := by
  obtain ⟨hplaced, hperm⟩ := insert_spec h.placed (k := k) v
  refine Ok.of_perm hplaced hperm ?_
  rw [List.map_cons, List.nodup_cons]
  exact ⟨(get_eq_none h).mp hk, h.keys_nodup⟩

theorem get_insert (h : Ok hash m) (hk : m.get hash k = none) (v : V) :
    (m.insert hash k v).get hash k' = if k' = k then some v else m.get hash k' := by
  have hins := ok_insert h hk v
  obtain ⟨-, hperm⟩ := insert_spec h.placed (k := k) v
  apply Option.ext
  intro w
  rw [get_eq_some hins, hperm.mem_iff, List.mem_cons, Prod.mk.injEq]
  split
  · rename_i heq
    rw [heq]
    constructor
    · intro hw
      rcases hw with ⟨-, rfl⟩ | hw
      · rfl
      · rw [(get_eq_some h).mpr hw] at hk
        cases hk
    · intro hw
      exact .inl ⟨rfl, (Option.some.inj hw).symm⟩
  · rename_i hne
    rw [get_eq_some h]
    exact ⟨fun hw => hw.resolve_left fun hc => hne hc.1, .inr⟩

/-- **Removal** of a key that is there. -/
theorem moveOut_spec (h : Ok hash m) (hv : m.get hash k = some v) :
    ∃ m', m.moveOut hash k = some (v, m') ∧ Placed hash m'.buckets ∧
      ((k, v) :: m'.entries).Perm m.entries := by
  obtain ⟨e, hfind, rfl⟩ := Option.map_eq_some_iff.mp hv
  have hk : e.1 = k := by simpa using List.find?_some hfind
  refine ⟨_, by unfold moveOut; rw [hfind], ?_, ?_⟩
  · exact placed_modify h.placed fun b x hx => .inl (List.mem_of_mem_eraseP hx)
  · unfold bucket at hfind
    rw [List.getD_eq_getElem?_getD] at hfind
    cases hb : m.buckets[hash k % m.buckets.length]? with
    | none =>
      rw [hb] at hfind
      cases hfind
    | some b =>
      rw [hb, Option.getD_some] at hfind
      have hmem := List.mem_of_find?_eq_some hfind
      refine flatten_modify_perm _ [(k, e.2)] [] hb ?_
      obtain ⟨x, l, r, hl, hx, hbx, her⟩ :=
        List.exists_of_eraseP (p := fun x : K × V => decide (x.1 = k)) hmem (decide_eq_true hk)
      rw [her, List.nil_append, hbx]
      have hxe : x = (k, e.2) := by
        rw [hbx, List.find?_append, List.find?_eq_none.mpr hl, Option.none_or] at hfind
        have hfirst : (x :: r).find? (fun x : K × V => decide (x.1 = k)) = some x :=
          List.find?_cons_of_pos hx
        rw [Option.some.inj (hfirst.symm.trans hfind), ← hk]
      rw [hxe, List.singleton_append]
      exact List.perm_middle.symm

theorem get_moveOut (h : Ok hash m) (hv : m.get hash k = some v) :
    ∃ m', m.moveOut hash k = some (v, m') ∧ Ok hash m' ∧
      ∀ k', m'.get hash k' = if k' = k then none else m.get hash k' := by
  obtain ⟨m', hmove, hplaced, hperm⟩ := moveOut_spec h hv
  have hnodup := ((hperm.map Prod.fst).nodup_iff).mpr h.keys_nodup
  rw [List.map_cons, List.nodup_cons] at hnodup
  have hok : Ok hash m' := ⟨hplaced, hnodup.2⟩
  refine ⟨m', hmove, hok, fun k' => ?_⟩
  split
  · rename_i heq
    rw [heq]
    exact (get_eq_none hok).mpr hnodup.1
  · rename_i hne
    apply Option.ext
    intro w
    rw [get_eq_some hok, get_eq_some h, ← hperm.mem_iff, List.mem_cons, Prod.mk.injEq]
    exact ⟨.inr, fun hw => hw.resolve_left fun hc => hne hc.1⟩

theorem moveOut_isSome {p : V × UMap K V} (hp : m.moveOut hash k = some p) :
    ∃ v, m.get hash k = some v := by
  unfold moveOut at hp
  split at hp
  · cases hp
  · rename_i e hfind
    refine ⟨e.2, ?_⟩
    unfold get
    rw [hfind]
    rfl

end Spec
end UMap
end WingOS
