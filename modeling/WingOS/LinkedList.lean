/-
# `LinkedList`

The list of `libcore/ds/linked_list.hpp`: nodes in a heap, and the head, the
tail and the count of each list. `malloc` gives an address that is not in use
(`MallocFresh`); a step that follows a dangling or null pointer does not get
through. What the lists should be is a sequence for each (`specStep`); a move
assignment exchanges two.

`operator+=` takes over the tail of the other list also where that is null
because the other list is empty (`AppendsNodes` excludes it).

Key definitions: `LinkedList`, `step`, `specStep`, `Shows`, `Refines`, `Owns`.
Key theorems: `push_owns`, `popFront_owns`, `remove_owns`, `append_owns`,
`release_owns`, `Owns.shows`.
-/
import WingOS.Lib.Chain
import Mathlib.Data.List.AList

namespace WingOS

open Lib (Node Seg addrs seg_append seg_singleton seg_congr seg_relink seg_cell addrs_nil addrs_cons
  addrs_append)

structure LinkedList (Addr : Type*) where
  head : Option Addr
  tail : Option Addr
  count : ℕ
  deriving DecidableEq

namespace LinkedList

variable {ι Addr α : Type*} [DecidableEq Addr]

/-- The nodes that `malloc` gave and `free` did not take. -/
abbrev Heap (Addr α : Type*) := AList fun _ : Addr => Node Addr α

/-- `LinkedList()`. -/
def empty : LinkedList Addr := ⟨none, none, 0⟩

/-- `a->next = next`. -/
def setNext (heap : Heap Addr α) (a : Addr) (next : Option Addr) : Option (Heap Addr α) :=
  (heap.lookup a).map fun node => heap.insert a { node with next }

/-- `push`, into the node `p`. -/
def push (heap : Heap Addr α) (l : LinkedList Addr) (p : Addr) (v : α) :
    Option (Heap Addr α × LinkedList Addr) :=
  let heap := heap.insert p ⟨none, v⟩
  let linked :=
    match l.tail with
    | none => some heap
    | some t => setNext heap t (some p)
  linked.map fun heap =>
    (heap, { head := if l.head = none then some p else l.head, tail := some p, count := l.count + 1 })

/-- `pop_front`, with the element it returns. -/
def popFront (heap : Heap Addr α) (l : LinkedList Addr) : Option (α × Heap Addr α × LinkedList Addr) :=
  match l.head with
  -- `unreachable$`
  | none => none
  | some h =>
    (heap.lookup h).map fun node =>
      (node.data, heap.erase h,
        { head := node.next, tail := if l.tail = l.head then none else l.tail, count := l.count - 1 })

/-- The loop of `remove`: `n` steps from `prev` on, none from null. -/
def walk (heap : Heap Addr α) : ℕ → Option Addr → Option (Option Addr)
  | 0, prev => some prev
  | _ + 1, none => some none
  | n + 1, some a => (heap.lookup a).bind fun node => walk heap n node.next

/-- `remove`; the element is missing where the code returns an empty one. -/
def remove (heap : Heap Addr α) (l : LinkedList Addr) (idx : ℕ) :
    Option (Option α × Heap Addr α × LinkedList Addr) :=
  if idx = 0 then (popFront heap l).map fun r => (some r.1, r.2)
  else
    (walk heap (idx - 1) l.head).bind fun prev =>
      match prev with
      | none => some (none, heap, l)
      | some a =>
        (heap.lookup a).bind fun node =>
          match node.next with
          | none => some (none, heap, l)
          | some d =>
            (heap.lookup d).bind fun deleted =>
              -- `prev->next = node_to_delete->next`, and null if that was the tail
              let heap := heap.insert a { node with next := deleted.next }
              let unlinked :=
                if some d = l.tail then (setNext heap a none).map fun heap => (heap, some a)
                else some (heap, l.tail)
              unlinked.map fun u =>
                (some deleted.data, u.1.erase d, { head := l.head, tail := u.2, count := l.count - 1 })

/-- `operator+=`: what becomes of the list; the other one is empty after it. -/
def append (heap : Heap Addr α) (l other : LinkedList Addr) : Option (Heap Addr α × LinkedList Addr) :=
  match l.tail with
  | some t =>
    (setNext heap t other.head).map fun heap =>
      (heap, { head := l.head, tail := other.tail, count := l.count + other.count })
  | none => some (heap, other)

/-- The loop of `release`: frees the nodes from `p` on. -/
def release (heap : Heap Addr α) (p : Option Addr) : Option (Heap Addr α) :=
  match p with
  | none => some heap
  | some a =>
    if _h : a ∈ heap then
      (heap.lookup a).bind fun node => release (heap.erase a) node.next
    else none
termination_by heap.keys.length
decreasing_by
  rw [AList.keys_erase, List.length_erase_of_mem (AList.mem_keys.mp _h)]
  exact Nat.sub_lt (List.length_pos_of_mem (AList.mem_keys.mp _h)) Nat.one_pos

/-- The lists, by the variables that hold them, and the heap. -/
structure State (ι Addr α : Type*) where
  heap : Heap Addr α
  lists : ι → Option (LinkedList Addr)

inductive Op (ι Addr α : Type*) where
  | construct (i : ι)
  | push (i : ι) (p : Addr) (v : α)
  | popFront (i : ι)
  | remove (i : ι) (idx : ℕ)
  | append (i j : ι)
  | moveConstruct (i j : ι)
  | moveAssign (i j : ι)
  | release (i : ι)
  | destroy (i : ι)

section Steps

variable [DecidableEq ι]

def State.set (s : State ι Addr α) (i : ι) (l : Option (LinkedList Addr)) : State ι Addr α :=
  { s with lists := Function.update s.lists i l }

omit [DecidableEq Addr] in
@[simp]
theorem State.set_lists (s : State ι Addr α) (i : ι) (l : Option (LinkedList Addr)) :
    (s.set i l).lists = Function.update s.lists i l := rfl

/-- One operation. A list is constructed in a variable that holds none, and
`+=` is of another list. -/
def step (s : State ι Addr α) : Op ι Addr α → Option (State ι Addr α)
  | .construct i => if s.lists i = none then some (s.set i (some empty)) else none
  | .push i p v =>
    (s.lists i).bind fun l => (push s.heap l p v).map fun r => { s with heap := r.1 }.set i (some r.2)
  | .popFront i =>
    (s.lists i).bind fun l => (popFront s.heap l).map fun r => { s with heap := r.2.1 }.set i (some r.2.2)
  | .remove i idx =>
    (s.lists i).bind fun l => (remove s.heap l idx).map fun r => { s with heap := r.2.1 }.set i (some r.2.2)
  | .append i j =>
    (s.lists i).bind fun l => (s.lists j).bind fun other =>
      if i = j then none
      else (append s.heap l other).map fun r => ({ s with heap := r.1 }.set j (some empty)).set i (some r.2)
  | .moveConstruct i j =>
    (s.lists j).bind fun other =>
      if s.lists i = none then some ((s.set j (some empty)).set i (some other)) else none
  | .moveAssign i j =>
    (s.lists i).bind fun l => (s.lists j).map fun other => (s.set i (some other)).set j (some l)
  | .release i =>
    (s.lists i).bind fun l => (release s.heap l.head).map fun heap => { s with heap }.set i (some empty)
  | .destroy i =>
    (s.lists i).bind fun l => (release s.heap l.head).map fun heap => { s with heap }.set i none

/-! ### What the lists should be -/

/-- The sequences of the variables. -/
def specStep (a : ι → Option (List α)) : Op ι Addr α → Option (ι → Option (List α))
  | .construct i => if a i = none then some (Function.update a i (some [])) else none
  | .push i _ v => (a i).map fun xs => Function.update a i (some (xs ++ [v]))
  | .popFront i => (a i).bind fun xs => if xs = [] then none else some (Function.update a i (some xs.tail))
  | .remove i idx =>
    (a i).bind fun xs =>
      if idx < xs.length then some (Function.update a i (some (xs.eraseIdx idx))) else none
  | .append i j =>
    (a i).bind fun xs => (a j).bind fun ys =>
      if i = j then none
      else some (Function.update (Function.update a j (some [])) i (some (xs ++ ys)))
  | .moveConstruct i j =>
    (a j).bind fun ys =>
      if a i = none then some (Function.update (Function.update a j (some [])) i (some ys)) else none
  | .moveAssign i j =>
    (a i).bind fun xs => (a j).map fun ys => Function.update (Function.update a i (some ys)) j (some xs)
  | .release i => (a i).map fun _ => Function.update a i (some [])
  | .destroy i => (a i).map fun _ => Function.update a i none

end Steps

/-- What an iterator sees from `p` to `end()`. -/
def Visits (heap : Heap Addr α) : Option Addr → List α → Prop
  | p, [] => p = none
  | p, v :: vs => ∃ a n, p = some a ∧ heap.lookup a = some ⟨n, v⟩ ∧ Visits heap n vs

/-- The list is the sequence `xs`: its elements, its count and its last one; the
tail is null if there is none, and no node follows it. -/
structure Shows (heap : Heap Addr α) (l : LinkedList Addr) (xs : List α) : Prop where
  elements : Visits heap l.head xs
  count : l.count = xs.length
  last : (l.tail.bind heap.lookup).map Node.data = xs.getLast?
  tail_null : l.tail = none ↔ xs = []
  next_null : ∀ t node, l.tail = some t → heap.lookup t = some node → node.next = none

/-- Every variable holds the list of its sequence. -/
def Refines (s : State ι Addr α) (a : ι → Option (List α)) : Prop :=
  ∀ i, (s.lists i = none ↔ a i = none) ∧
    ∀ l xs, s.lists i = some l → a i = some xs → Shows s.heap l xs

/-- `malloc` gives an address that is not in use. -/
def MallocFresh (s : State ι Addr α) : Op ι Addr α → Prop
  | .push _ p _ => p ∉ s.heap
  | _ => True

/-- An empty list is not appended to one that has elements. -/
def AppendsNodes (s : State ι Addr α) : Op ι Addr α → Prop
  | .append i j => (s.lists i).bind tail ≠ none → (s.lists j).bind head ≠ none
  | _ => True

/-- The addresses that `malloc` gives are free, and no empty list is appended to
one that has elements. -/
def GoodStep (s : State ι Addr α) (o : Op ι Addr α) : Prop := MallocFresh s o ∧ AppendsNodes s o

instance (s : State ι Addr α) : ∀ o, Decidable (MallocFresh s o)
  | .push _ p _ => inferInstanceAs (Decidable (p ∉ s.heap))
  | .construct _ | .popFront _ | .remove _ _ | .append _ _ | .moveConstruct _ _ | .moveAssign _ _
  | .release _ | .destroy _ => inferInstanceAs (Decidable True)

instance (s : State ι Addr α) : ∀ o, Decidable (AppendsNodes s o)
  | .append i j => inferInstanceAs (Decidable ((s.lists i).bind tail ≠ none → (s.lists j).bind head ≠ none))
  | .construct _ | .push _ _ _ | .popFront _ | .remove _ _ | .moveConstruct _ _ | .moveAssign _ _
  | .release _ | .destroy _ => inferInstanceAs (Decidable True)

instance (s : State ι Addr α) (o : Op ι Addr α) : Decidable (GoodStep s o) :=
  inferInstanceAs (Decidable (MallocFresh s o ∧ AppendsNodes s o))

/-! ### The operations on the nodes of a list -/

/-- The list is the nodes `xs`. -/
structure Owns (heap : Heap Addr α) (l : LinkedList Addr) (xs : List (Addr × α)) : Prop where
  seg : Seg heap.lookup l.head xs none
  tail : l.tail = (addrs xs).getLast?
  count : l.count = xs.length

section Operations

variable {heap : Heap Addr α} {l : LinkedList Addr} {xs : List (Addr × α)} {p : Addr} {v : α}

theorem owns_empty : Owns heap (empty : LinkedList Addr) [] := ⟨rfl, rfl, rfl⟩

theorem setNext_eq {next n : Option Addr} (h : heap.lookup p = some ⟨n, v⟩) :
    setNext heap p next = some (heap.insert p ⟨next, v⟩) := by
  rw [setNext, h]
  rfl

/-- The nodes of a list are in the heap. -/
theorem Owns.mem (h : Owns heap l xs) (hp : p ∈ addrs xs) : p ∈ heap := by
  obtain ⟨⟨a, v⟩, hmem, rfl⟩ := List.mem_map.mp hp
  obtain ⟨n, hcell⟩ := seg_cell h.seg hmem
  rw [← AList.lookup_isSome, hcell]
  rfl

theorem Owns.congr {heap' : Heap Addr α} (h : Owns heap l xs)
    (hsame : ∀ a ∈ addrs xs, heap.lookup a = heap'.lookup a) : Owns heap' l xs :=
  ⟨seg_congr hsame h.seg, h.tail, h.count⟩

/-- A last node: it is the tail, nothing follows it, and it is no earlier one. -/
theorem Owns.last {ys : List (Addr × α)} (h : Owns heap l (ys ++ [(p, v)])) (hnodup : (addrs (ys ++ [(p, v)])).Nodup) :
    l.tail = some p ∧ l.head ≠ none ∧ heap.lookup p = some ⟨none, v⟩ ∧ p ∉ addrs ys := by
  obtain ⟨r, hys, hlast⟩ := seg_append.mp h.seg
  obtain ⟨rfl, hcell⟩ := seg_singleton.mp hlast
  rw [addrs_append, List.nodup_append] at hnodup
  refine ⟨by simp [h.tail], fun hnone => ?_, hcell, fun hmem => hnodup.2.2 p hmem p List.mem_cons_self rfl⟩
  rw [hnone] at hys
  cases ys with
  | nil => exact absurd hys (by simp [Seg])
  | cons y ys => exact absurd hys.1 (by simp)

theorem push_owns (h : Owns heap l xs) (hnodup : (addrs xs).Nodup) (hp : p ∉ heap) :
    ∃ heap' l', push heap l p v = some (heap', l') ∧ Owns heap' l' (xs ++ [(p, v)]) ∧
      ∀ a, a ∉ addrs xs → a ≠ p → heap.lookup a = heap'.lookup a := by
  have hpxs : p ∉ addrs xs := fun hmem => hp (h.mem hmem)
  have hcount : l.count + 1 = (xs ++ [(p, v)]).length := by
    rw [List.length_append, h.count]
    rfl
  have htail : some p = (addrs (xs ++ [(p, v)])).getLast? := by simp
  unfold push
  rcases List.eq_nil_or_concat xs with rfl | ⟨ys, ⟨t, w⟩, rfl⟩
  · have hnil : l.tail = none := h.tail
    have hhead : l.head = none := h.seg
    rw [hnil, hhead]
    refine ⟨_, _, rfl, ⟨?_, htail, hcount⟩, fun a _ ha => (AList.lookup_insert_ne ha).symm⟩
    exact seg_singleton.mpr ⟨rfl, AList.lookup_insert heap⟩
  · rw [List.concat_eq_append] at *
    obtain ⟨hlast, hhead, hcell, htys⟩ := h.last hnodup
    have htp : t ≠ p := fun heq => hpxs (by simp [heq])
    have hcell' : (heap.insert p ⟨none, v⟩).lookup t = some ⟨none, w⟩ := by
      rw [AList.lookup_insert_ne htp, hcell]
    rw [hlast]
    simp only [setNext_eq hcell', Option.map_some, if_neg hhead]
    have hother : ∀ a, a ≠ t → a ≠ p →
        heap.lookup a = ((heap.insert p ⟨none, v⟩).insert t ⟨some p, w⟩).lookup a := fun a hat hap => by
      rw [AList.lookup_insert_ne hat, AList.lookup_insert_ne hap]
    refine ⟨_, _, rfl, ⟨?_, htail, hcount⟩, fun a ha hap => hother a (fun heq => ha (by simp [heq])) hap⟩
    refine seg_append.mpr ⟨some p, seg_relink h.seg (AList.lookup_insert _) fun a ha => ?_, ?_⟩
    · exact hother a (ne_of_mem_of_not_mem ha htys) fun heq => hpxs (by simp [← heq, ha])
    · refine seg_singleton.mpr ⟨rfl, ?_⟩
      rw [AList.lookup_insert_ne htp.symm, AList.lookup_insert]

theorem popFront_owns (h : Owns heap l ((p, v) :: xs)) (hnodup : (addrs ((p, v) :: xs)).Nodup) :
    ∃ heap' l', popFront heap l = some (v, heap', l') ∧ Owns heap' l' xs ∧
      ∀ a, a ≠ p → heap.lookup a = heap'.lookup a := by
  obtain ⟨hhead, n, hcell, hrest⟩ := h.seg
  have hpxs : p ∉ addrs xs := (List.nodup_cons.mp hnodup).1
  have hother : ∀ a, a ≠ p → heap.lookup a = (heap.erase p).lookup a := fun a ha =>
    (AList.lookup_erase_ne ha).symm
  unfold popFront
  rw [hhead]
  simp only [hcell, Option.map_some]
  refine ⟨_, _, rfl, ⟨seg_congr (fun a ha => hother a (ne_of_mem_of_not_mem ha hpxs)) hrest, ?_, ?_⟩, hother⟩
  · rcases List.eq_nil_or_concat xs with rfl | ⟨ys, ⟨t, w⟩, rfl⟩
    · exact if_pos h.tail
    · have htail : l.tail = some t := by
        rw [h.tail, List.concat_eq_append, ← List.cons_append, addrs_append]
        exact List.getLast?_concat
      have htp : t ≠ p := fun heq => hpxs (by simp [heq])
      simp [htail, htp]
  · show l.count - 1 = xs.length
    rw [h.count, List.length_cons, Nat.add_sub_cancel]

/-- The loop of `remove` goes along the nodes. -/
theorem walk_seg : ∀ {ys : List (Addr × α)} {q r : Option Addr}, Seg heap.lookup q ys r →
    walk heap ys.length q = some r
  | [], q, r, h => by
    rw [← show q = r from h]
    rfl
  | (a, w) :: ys, q, r, h => by
    obtain ⟨rfl, n, hcell, hrest⟩ := h
    have hlookup : heap.lookup a = some ⟨n, w⟩ := hcell
    rw [List.length_cons, walk, hlookup]
    exact walk_seg hrest

/-- The nodes without `d`, once `p` points past it. -/
theorem unlink_owns {ys zs : List (Addr × α)} {d : Addr} {w : α} {n : Option Addr}
    (h : Owns heap l (ys ++ (p, v) :: (d, w) :: zs))
    (hnodup : (addrs (ys ++ (p, v) :: (d, w) :: zs)).Nodup)
    (hys : Seg heap.lookup l.head ys (some p)) (hzs : Seg heap.lookup n zs none) {tail : Option Addr}
    (htail : tail = (addrs (ys ++ (p, v) :: zs)).getLast?) :
    Owns ((heap.insert p ⟨n, v⟩).erase d) ⟨l.head, tail, l.count - 1⟩ (ys ++ (p, v) :: zs) := by
  simp only [addrs_append, addrs_cons, List.nodup_append, List.nodup_cons, List.mem_cons] at hnodup
  obtain ⟨-, ⟨hpd, hdzs, -⟩, hapart⟩ := hnodup
  have hstored : ((heap.insert p ⟨n, v⟩).erase d).lookup p = some ⟨n, v⟩ := by
    rw [AList.lookup_erase_ne fun heq => hpd (Or.inl heq), AList.lookup_insert]
  have hother : ∀ a, a ≠ p → a ≠ d → heap.lookup a = ((heap.insert p ⟨n, v⟩).erase d).lookup a :=
    fun a hap had => by rw [AList.lookup_erase_ne had, AList.lookup_insert_ne hap]
  have hcount : l.count - 1 = (ys ++ (p, v) :: zs).length := by
    rw [h.count]
    simp only [List.length_append, List.length_cons]
    omega
  refine ⟨seg_append.mpr ⟨some p, seg_congr (fun a ha => ?_) hys, rfl, n, hstored, ?_⟩, htail, hcount⟩
  · exact hother a (fun heq => hapart a ha p (Or.inl rfl) heq)
      fun heq => hapart a ha d (Or.inr (Or.inl rfl)) heq
  · exact seg_congr (fun a ha => hother a (fun heq => hpd (Or.inr (heq ▸ ha))) fun heq => hdzs (heq ▸ ha)) hzs

/-- `remove` of a node behind the first one. -/
theorem remove_owns {ys zs : List (Addr × α)} {d : Addr} {w : α}
    (h : Owns heap l (ys ++ (p, v) :: (d, w) :: zs))
    (hnodup : (addrs (ys ++ (p, v) :: (d, w) :: zs)).Nodup) :
    ∃ heap' l', remove heap l (ys.length + 1) = some (some w, heap', l') ∧
      Owns heap' l' (ys ++ (p, v) :: zs) ∧
      ∀ a, a ∉ addrs (ys ++ (p, v) :: (d, w) :: zs) → heap.lookup a = heap'.lookup a := by
  obtain ⟨q, hys, hrest⟩ := seg_append.mp h.seg
  obtain ⟨rfl, m, hp, hdrest⟩ := hrest
  obtain ⟨rfl, n, hd, hzs⟩ := hdrest
  have hcellp : heap.lookup p = some ⟨some d, v⟩ := hp
  have hcelld : heap.lookup d = some ⟨n, w⟩ := hd
  have hframe : ∀ a, a ∉ addrs (ys ++ (p, v) :: (d, w) :: zs) →
      heap.lookup a = ((heap.insert p ⟨n, v⟩).erase d).lookup a := fun a ha => by
    rw [AList.lookup_erase_ne fun heq => ha (by simp [heq]), AList.lookup_insert_ne fun heq => ha (by simp [heq])]
  have hremove : ∀ tail, (if some d = l.tail then
        (setNext (heap.insert p ⟨n, v⟩) p none).map fun heap => (heap, some p)
      else some (heap.insert p ⟨n, v⟩, l.tail)) = some (heap.insert p ⟨n, v⟩, tail) →
      remove heap l (ys.length + 1) =
        some (some w, (heap.insert p ⟨n, v⟩).erase d, ⟨l.head, tail, l.count - 1⟩) := by
    intro tail htail
    unfold remove
    rw [if_neg (Nat.succ_ne_zero _), Nat.add_sub_cancel, walk_seg hys]
    simp only [Option.bind_some, hcellp, hcelld, htail, Option.map_some]
  rcases List.eq_nil_or_concat zs with rfl | ⟨us, ⟨t, u⟩, rfl⟩
  · have htail : some d = l.tail := by
      rw [h.tail, ← List.singleton_append, ← List.append_assoc, addrs_append]
      exact List.getLast?_concat.symm
    have hn : n = none := hzs
    subst hn
    refine ⟨_, _, hremove (some p) ?_, unlink_owns h hnodup hys hzs (by simp), hframe⟩
    rw [if_pos htail, setNext_eq (AList.lookup_insert heap), AList.insert_insert]
    rfl
  · have hlast : ∀ vs : List (Addr × α), (addrs (vs ++ us.concat (t, u))).getLast? = some t := fun vs => by
      rw [List.concat_eq_append, ← List.append_assoc, addrs_append]
      exact List.getLast?_concat
    have htail : l.tail = some t := by
      rw [h.tail, ← hlast (ys ++ [(p, v), (d, w)]), List.append_assoc]
      rfl
    have htd : some d ≠ l.tail := fun heq => by
      rw [htail, Option.some.injEq] at heq
      rw [addrs_append] at hnodup
      have hd := (List.nodup_cons.mp (List.nodup_cons.mp (List.nodup_append.mp hnodup).2.1).2).1
      exact hd (by simp [heq])
    refine ⟨_, _, hremove l.tail (if_neg htd), unlink_owns h hnodup hys hzs ?_, hframe⟩
    rw [htail, ← hlast (ys ++ [(p, v)]), List.append_assoc]
    rfl

/-- `operator+=`, unless the other list is empty and this one is not. -/
theorem append_owns {ys : List (Addr × α)} {other : LinkedList Addr} (h : Owns heap l xs)
    (hother : Owns heap other ys) (hnodup : (addrs (xs ++ ys)).Nodup) (hne : l.tail ≠ none → other.head ≠ none) :
    ∃ heap' l', append heap l other = some (heap', l') ∧ Owns heap' l' (xs ++ ys) ∧
      ∀ a, a ∉ addrs xs → heap.lookup a = heap'.lookup a := by
  unfold append
  rcases List.eq_nil_or_concat xs with rfl | ⟨us, ⟨t, u⟩, rfl⟩
  · have hnil : l.tail = none := h.tail
    rw [hnil]
    exact ⟨_, _, rfl, hother, fun _ _ => rfl⟩
  · rw [List.concat_eq_append] at *
    rw [addrs_append] at hnodup
    obtain ⟨hxs, -, hapart⟩ := List.nodup_append.mp hnodup
    obtain ⟨hlast, -, hcell, htus⟩ := h.last hxs
    rw [hlast] at hne ⊢
    have hys : ys ≠ [] := by
      rintro rfl
      exact hne (Option.some_ne_none t) hother.seg
    have hframe : ∀ a, a ≠ t → heap.lookup a = (heap.insert t ⟨other.head, u⟩).lookup a := fun a ha =>
      (AList.lookup_insert_ne ha).symm
    have htys : t ∉ addrs ys := fun hmem => hapart t (by simp) t hmem rfl
    simp only [setNext_eq hcell, Option.map_some]
    refine ⟨_, _, rfl, ⟨seg_append.mpr ⟨other.head, seg_relink h.seg (AList.lookup_insert heap) ?_, ?_⟩,
      ?_, ?_⟩, fun a ha => hframe a fun heq => ha (by simp [heq])⟩
    · exact fun a ha => hframe a (ne_of_mem_of_not_mem ha htus)
    · exact seg_congr (fun a ha => hframe a (ne_of_mem_of_not_mem ha htys)) hother.seg
    · rw [addrs_append, List.getLast?_append_of_ne_nil _ (by simpa [addrs] using hys)]
      exact hother.tail
    · rw [h.count, hother.count, ← List.length_append]

/-- `release` frees the nodes of the list. -/
theorem release_owns : ∀ {xs : List (Addr × α)} {heap : Heap Addr α} {q : Option Addr},
    Seg heap.lookup q xs none → (addrs xs).Nodup →
    ∃ heap', release heap q = some heap' ∧ ∀ a, a ∉ addrs xs → heap.lookup a = heap'.lookup a
  | [], heap, q, h, _ => by
    obtain rfl : q = none := h
    refine ⟨heap, ?_, fun _ _ => rfl⟩
    rw [release]
  | (a, w) :: xs, heap, q, h, hnodup => by
    obtain ⟨rfl, n, hcell, hrest⟩ := h
    have hlookup : heap.lookup a = some ⟨n, w⟩ := hcell
    have hmem : a ∈ heap := AList.lookup_isSome.mp (by rw [hlookup]; rfl)
    obtain ⟨haxs, hxs⟩ := List.nodup_cons.mp hnodup
    have hframe : ∀ b, b ≠ a → heap.lookup b = (heap.erase a).lookup b := fun b hb =>
      (AList.lookup_erase_ne hb).symm
    obtain ⟨heap', hrelease, hother⟩ :=
      release_owns (seg_congr (fun b hb => hframe b (ne_of_mem_of_not_mem hb haxs)) hrest) hxs
    refine ⟨heap', ?_, fun b hb => ?_⟩
    · rw [release, dif_pos hmem, hlookup]
      exact hrelease
    · rw [addrs_cons, List.mem_cons, not_or] at hb
      rw [hframe b hb.1, hother b hb.2]

/-- A list that is the nodes shows their values. -/
theorem visits_of_seg : ∀ {xs : List (Addr × α)} {q : Option Addr}, Seg heap.lookup q xs none →
    Visits heap q (xs.map Prod.snd)
  | [], _, h => h
  | (a, w) :: _, _, h => by
    obtain ⟨hq, n, hcell, hrest⟩ := h
    exact ⟨a, n, hq, hcell, visits_of_seg hrest⟩

theorem Owns.shows (h : Owns heap l xs) (hnodup : (addrs xs).Nodup) : Shows heap l (xs.map Prod.snd) := by
  have helements := visits_of_seg h.seg
  have hcount : l.count = (xs.map Prod.snd).length := by rw [h.count, List.length_map]
  rcases List.eq_nil_or_concat xs with rfl | ⟨us, ⟨t, u⟩, rfl⟩
  · have htail : l.tail = none := h.tail
    refine ⟨helements, hcount, ?_, ?_, fun t node ht => ?_⟩
    · rw [htail]
      rfl
    · exact ⟨fun _ => rfl, fun _ => htail⟩
    · rw [htail] at ht
      exact absurd ht (by simp)
  · rw [List.concat_eq_append] at *
    obtain ⟨htail, -, hcell, -⟩ := h.last hnodup
    refine ⟨helements, hcount, ?_, ?_, fun a node ha hnode => ?_⟩
    · rw [htail]
      simp [hcell]
    · rw [htail]
      simp
    · rw [htail, Option.some.injEq] at ha
      rw [← ha, hcell, Option.some.injEq] at hnode
      rw [← hnode]

end Operations

end LinkedList
end WingOS
