/-
# Walks that keep no record of where they were

At each node there is a list of items: something that is found there, or an edge to
another node, which is walked at once, from its beginning (`unfold`). A walk keeps no
record of the nodes where it was, so it goes through what is behind an edge as often as
it comes there, and may not end. It ends if and only if it can come back to no node
(`unfold_isSome_iff`, `acc_iff_acyclic`).

What is found has a path to it, and a walk finds it once for every path
(`mem_trail_iff`, `trail_nodup`): it finds it exactly once if there is exactly one
(`count_unfold_eq_one_iff`).

Key definitions: `collect`, `unfold`, `trail`, `Path`, `Goes`.
Key theorems: `unfold_isSome_iff`, `acc_iff_acyclic`, `mem_trail_iff`, `trail_nodup`,
`count_unfold_eq_one_iff`.
-/
import Mathlib.Data.List.Basic
import Mathlib.Data.List.Nodup
import Mathlib.Data.Fintype.Card
import Mathlib.Data.Fintype.EquivFin
import Mathlib.Order.WellFounded
import Mathlib.Logic.Relation

namespace WingOS
namespace Lib

variable {α β γ ε : Type*}

/-- What a list of items comes to: `found` for each thing, and what `walk` comes to for each edge. -/
def collect (found : β → γ) (walk : ε → Option (List γ)) : List (β ⊕ ε) → Option (List γ)
  | [] => some []
  | .inl b :: is => (collect found walk is).map (found b :: ·)
  | .inr e :: is => do
    let l ← walk e
    let m ← collect found walk is
    return l ++ m

variable (items : α → List (β ⊕ ε)) (target : ε → α)

/-- What a walk from a node finds, which goes down `n` nodes at most. -/
def unfold : (n : ℕ) → α → Option (List β)
  | 0, _ => none
  | n + 1, a => collect id (fun e => unfold n (target e)) (items a)

/-- The same, with the edges to everything that is found. -/
def trail : (n : ℕ) → α → Option (List (List ε × β))
  | 0, _ => none
  | n + 1, a =>
    collect (fun b => ([], b)) (fun e => (trail n (target e)).map (List.map fun p => (e :: p.1, p.2))) (items a)

/-- The edge is one of a node. -/
def Edge (a : α) (e : ε) : Prop := .inr e ∈ items a

/-- The edges lead from one node to the other. -/
def Path (edge : α → ε → Prop) (target : ε → α) : α → List ε → α → Prop
  | a, [], b => a = b
  | a, e :: es, b => edge a e ∧ Path edge target (target e) es b

/-- There is an edge from one node to the other. -/
def Goes (edge : α → ε → Prop) (target : ε → α) (a b : α) : Prop := ∃ e, edge a e ∧ target e = b

variable {items target} {found : β → γ} {walk walk' : ε → Option (List γ)} {is : List (β ⊕ ε)} {n : ℕ} {a : α}

theorem collect_isSome_iff : (collect found walk is).isSome = true ↔ ∀ e, .inr e ∈ is → (walk e).isSome = true := by
  induction is with
  | nil => simp [collect]
  | cons i is ih =>
    cases i with
    | inl b => simp [collect, ih]
    | inr e =>
      cases hwalk : walk e with
      | none =>
        refine iff_of_false (by simp [collect, hwalk]) fun h => ?_
        have := h e List.mem_cons_self
        rw [hwalk] at this
        cases this
      | some l =>
        have hrest : (collect found walk (.inr e :: is)).isSome = (collect found walk is).isSome := by
          cases hcollect : collect found walk is <;> simp [collect, hwalk, hcollect]
        rw [hrest, ih]
        simp [hwalk]

theorem collect_congr (h : ∀ e, .inr e ∈ is → walk e = walk' e) : collect found walk is = collect found walk' is := by
  induction is with
  | nil => rfl
  | cons i is ih =>
    have hrest := ih fun e he => h e (List.mem_cons_of_mem i he)
    cases i with
    | inl b => rw [collect, collect, hrest]
    | inr e => rw [collect, collect, h e List.mem_cons_self, hrest]

theorem collect_append {js : List (β ⊕ ε)} : collect found walk (is ++ js) =
    (collect found walk is).bind fun l => (collect found walk js).map (l ++ ·) := by
  induction is with
  | nil => cases h : collect found walk js <;> simp [collect, h]
  | cons i is ih =>
    cases i with
    | inl b =>
      rw [List.cons_append, collect, collect, ih]
      cases collect found walk is <;> cases collect found walk js <;> rfl
    | inr e =>
      rw [List.cons_append, collect, collect, ih]
      cases walk e <;> cases collect found walk is <;> cases collect found walk js <;> simp

/-- A loop that adds to a list what comes of the items of each `x`. -/
theorem foldlM_eq_collect {δ : Type*} {step : List γ → δ → Option (List γ)} {items : δ → List (β ⊕ ε)} {xs : List δ}
    (hstep : ∀ l, ∀ x ∈ xs, step l x = (collect found walk (items x)).map (l ++ ·)) (l : List γ) :
    xs.foldlM step l = (collect found walk (xs.flatMap items)).map (l ++ ·) := by
  induction xs generalizing l with
  | nil => simp [collect]
  | cons x xs ih =>
    have hrest := ih fun l y hy => hstep l y (List.mem_cons_of_mem x hy)
    rw [List.foldlM_cons, hstep l x List.mem_cons_self, List.flatMap_cons, collect_append]
    cases collect found walk (items x) with
    | none => rfl
    | some m =>
      refine (hrest (l ++ m)).trans ?_
      cases collect found walk (xs.flatMap items) <;> simp

/-- More depth changes nothing. -/
theorem unfold_mono {m : ℕ} (hnm : n ≤ m) (h : (unfold items target n a).isSome = true) :
    unfold items target m a = unfold items target n a := by
  induction n generalizing a m with
  | zero => cases h
  | succ n ih =>
    obtain ⟨m, rfl⟩ : ∃ k, m = k + 1 := ⟨m - 1, by omega⟩
    rw [unfold] at h ⊢
    rw [unfold]
    exact collect_congr fun e he => ih (by omega) (collect_isSome_iff.mp h e he)

theorem exists_common_depth (h : ∀ e, .inr e ∈ is → ∃ n, (unfold items target n (target e)).isSome = true) :
    ∃ n, ∀ e, .inr e ∈ is → (unfold items target n (target e)).isSome = true := by
  induction is with
  | nil => exact ⟨0, fun e he => absurd he List.not_mem_nil⟩
  | cons i is ih =>
    obtain ⟨n, hn⟩ := ih fun e he => h e (List.mem_cons_of_mem i he)
    cases i with
    | inl b => exact ⟨n, fun e he => hn e (by simpa using he)⟩
    | inr e =>
      obtain ⟨m, hm⟩ := h e List.mem_cons_self
      refine ⟨max n m, fun e' he' => ?_⟩
      rcases List.mem_cons.mp he' with heq | hmem
      · cases heq
        rw [unfold_mono (le_max_right n m) hm]
        exact hm
      · rw [unfold_mono (le_max_left n m) (hn e' hmem)]
        exact hn e' hmem

/-- **When a walk ends**: it can go on for ever from no node. -/
theorem unfold_isSome_iff : (∃ n, (unfold items target n a).isSome = true) ↔ Acc (flip (Goes (Edge items) target)) a := by
  constructor
  · rintro ⟨n, h⟩
    induction n generalizing a with
    | zero => cases h
    | succ n ih =>
      rw [unfold] at h
      constructor
      rintro b ⟨e, he, rfl⟩
      exact ih (collect_isSome_iff.mp h e he)
  · intro h
    induction h with
    | intro a _ ih =>
      have hedge : ∀ e, .inr e ∈ items a → ∃ n, (unfold items target n (target e)).isSome = true := fun e he =>
        ih (target e) ⟨e, he, rfl⟩
      obtain ⟨n, hn⟩ := exists_common_depth hedge
      exact ⟨n + 1, collect_isSome_iff.mpr hn⟩

/-- Where there are finitely many nodes, it can go on for ever only around a circle. -/
theorem acc_iff_acyclic [Finite α] {r : α → α → Prop} :
    Acc (flip r) a ↔ ∀ b, Relation.ReflTransGen r a b → ¬Relation.TransGen r b b := by
  constructor
  · intro h
    induction h with
    | intro a _ ih =>
      intro b hab hbb
      rcases hab.cases_head with rfl | ⟨c, hac, hcb⟩
      · obtain ⟨c, hac, hca⟩ := Relation.TransGen.head'_iff.mp hbb
        exact ih c hac c .refl (Relation.TransGen.tail' hca hac)
      · exact ih c hac b hcb hbb
  · intro h
    -- the nodes that a walk from `a` can come to, of which each comes before those behind it
    let Behind (x y : {b // Relation.ReflTransGen r a b}) : Prop := Relation.TransGen r y.1 x.1
    have htrans : IsTrans _ Behind := ⟨fun x y z hxy hyz => hyz.trans hxy⟩
    have hirrefl : Std.Irrefl Behind := ⟨fun x => h x.1 x.2⟩
    have hwf : WellFounded Behind := Finite.wellFounded_of_trans_of_irrefl Behind
    have hacc : ∀ x : {b // Relation.ReflTransGen r a b}, Acc (flip r) x.1 := by
      intro x
      induction x using hwf.induction with
      | _ x ih => exact ⟨x.1, fun b hxb => ih ⟨b, x.2.tail hxb⟩ (.single hxb)⟩
    exact hacc ⟨a, .refl⟩

theorem map_collect {δ : Type*} (f : γ → δ) :
    (collect found walk is).map (List.map f) = collect (f ∘ found) (fun e => (walk e).map (List.map f)) is := by
  induction is with
  | nil => rfl
  | cons i is ih =>
    cases i with
    | inl b =>
      rw [collect, collect, ← ih]
      cases collect found walk is <;> rfl
    | inr e =>
      rw [collect, collect, ← ih]
      cases walk e <;> cases collect found walk is <;> simp

theorem unfold_eq_trail : unfold items target n a = (trail items target n a).map (List.map Prod.snd) := by
  induction n generalizing a with
  | zero => rfl
  | succ n ih =>
    rw [unfold, trail, map_collect]
    refine collect_congr fun e _ => ?_
    rw [ih, Option.map_map]
    refine congrArg (Option.map · _) (funext fun l => ?_)
    simp

theorem mem_collect {l : List γ} {c : γ} (h : collect found walk is = some l) :
    c ∈ l ↔ (∃ b, .inl b ∈ is ∧ found b = c) ∨ ∃ e, .inr e ∈ is ∧ ∃ m, walk e = some m ∧ c ∈ m := by
  induction is generalizing l with
  | nil =>
    cases h
    simp
  | cons i is ih =>
    cases i with
    | inl b =>
      obtain ⟨m, hm, rfl⟩ := Option.map_eq_some_iff.mp h
      simp [ih hm, or_assoc, eq_comm]
    | inr e =>
      obtain ⟨m, hm, h⟩ := Option.bind_eq_some_iff.mp h
      obtain ⟨m', hm', h⟩ := Option.bind_eq_some_iff.mp h
      cases h
      simp only [List.mem_append, ih hm', List.mem_cons, reduceCtorEq, false_or, Sum.inr.injEq]
      constructor
      · rintro (hc | hb | ⟨e', he', hc⟩)
        · exact .inr ⟨e, .inl rfl, m, hm, hc⟩
        · exact .inl hb
        · exact .inr ⟨e', .inr he', hc⟩
      · rintro (hb | ⟨e', rfl | he', m'', hm'', hc⟩)
        · exact .inr (.inl hb)
        · rw [hm] at hm''
          cases hm''
          exact .inl hc
        · exact .inr (.inr ⟨e', he', m'', hm'', hc⟩)

/-- **What is found**, with the edges to it. -/
theorem mem_trail_iff {l : List (List ε × β)} {es : List ε} {b : β} (h : trail items target n a = some l) :
    (es, b) ∈ l ↔ ∃ x, Path (Edge items) target a es x ∧ .inl b ∈ items x := by
  induction n generalizing a l es with
  | zero => cases h
  | succ n ih =>
    rw [trail] at h
    rw [mem_collect h]
    cases es with
    | nil => simp [Path]
    | cons e es =>
      constructor
      · rintro (⟨b', _, heq⟩ | ⟨e', he', m, hm, hmem⟩)
        · cases heq
        · obtain ⟨l', hl', rfl⟩ := Option.map_eq_some_iff.mp hm
          obtain ⟨p, hp, heq⟩ := List.mem_map.mp hmem
          cases heq
          obtain ⟨x, hpath, hx⟩ := (ih hl').mp hp
          exact ⟨x, ⟨he', hpath⟩, hx⟩
      · rintro ⟨x, ⟨he, hpath⟩, hx⟩
        have hsome := Option.isSome_iff_exists.mpr ⟨l, h⟩
        obtain ⟨m, hm⟩ := Option.isSome_iff_exists.mp (collect_isSome_iff.mp hsome e he)
        obtain ⟨l', hl', rfl⟩ := Option.map_eq_some_iff.mp hm
        exact .inr ⟨e, he, _, hm, List.mem_map.mpr ⟨(es, b), (ih hl').mpr ⟨x, hpath, hx⟩, rfl⟩⟩

theorem nodup_collect {l : List γ} (h : collect found walk is = some l) (hnodup : is.Nodup)
    (hfound : Function.Injective found) (hwalk : ∀ e m, walk e = some m → m.Nodup)
    (happart : ∀ b e m, walk e = some m → found b ∉ m)
    (hdisjoint : ∀ e e' m m', e ≠ e' → walk e = some m → walk e' = some m' → m.Disjoint m') : l.Nodup := by
  induction is generalizing l with
  | nil =>
    cases h
    exact List.nodup_nil
  | cons i is ih =>
    obtain ⟨hi, his⟩ := List.nodup_cons.mp hnodup
    cases i with
    | inl b =>
      obtain ⟨m, hm, rfl⟩ := Option.map_eq_some_iff.mp h
      refine List.nodup_cons.mpr ⟨fun hmem => ?_, ih hm his⟩
      rcases (mem_collect hm).mp hmem with ⟨b', hb', heq⟩ | ⟨e, _, m', hm', hmem'⟩
      · rw [hfound heq] at hb'
        exact hi hb'
      · exact happart b e m' hm' hmem'
    | inr e =>
      obtain ⟨m, hm, h⟩ := Option.bind_eq_some_iff.mp h
      obtain ⟨m', hm', h⟩ := Option.bind_eq_some_iff.mp h
      cases h
      refine List.Nodup.append (hwalk e m hm) (ih hm' his) fun c hc hc' => ?_
      rcases (mem_collect hm').mp hc' with ⟨b, _, rfl⟩ | ⟨e', he', m'', hm'', hc''⟩
      · exact happart b e m hm hc
      · have hne : e ≠ e' := by
          rintro rfl
          exact hi he'
        exact hdisjoint e e' m m'' hne hm hm'' hc hc''

/-- Nothing is found twice by the same edges. -/
theorem trail_nodup {l : List (List ε × β)} (hitems : ∀ a, (items a).Nodup) (h : trail items target n a = some l) :
    l.Nodup := by
  induction n generalizing a l with
  | zero => cases h
  | succ n ih =>
    rw [trail] at h
    refine nodup_collect h (hitems a) (fun b b' heq => congrArg Prod.snd heq) ?_ ?_ ?_
    · intro e m hm
      obtain ⟨l', hl', rfl⟩ := Option.map_eq_some_iff.mp hm
      refine (ih hl').map fun p q heq => ?_
      obtain ⟨heads, hb⟩ := Prod.mk.inj heq
      exact Prod.ext (List.cons.inj heads).2 hb
    · intro b e m hm hmem
      obtain ⟨l', _, rfl⟩ := Option.map_eq_some_iff.mp hm
      obtain ⟨p, _, heq⟩ := List.mem_map.mp hmem
      cases heq
    · intro e e' m m' hne hm hm' c hc hc'
      obtain ⟨l', _, rfl⟩ := Option.map_eq_some_iff.mp hm
      obtain ⟨l'', _, rfl⟩ := Option.map_eq_some_iff.mp hm'
      obtain ⟨p, _, rfl⟩ := List.mem_map.mp hc
      obtain ⟨q, _, heq⟩ := List.mem_map.mp hc'
      exact hne (List.cons.inj (congrArg Prod.fst heq)).1.symm

theorem length_eq_one_iff_existsUnique {l : List γ} (hnodup : l.Nodup) : l.length = 1 ↔ ∃! c, c ∈ l := by
  constructor
  · intro h
    obtain ⟨c, rfl⟩ := List.length_eq_one_iff.mp h
    exact ⟨c, by simp, fun d hd => by simpa using hd⟩
  · rintro ⟨c, hc, huniq⟩
    have hrep : l = List.replicate l.length c := List.eq_replicate_iff.mpr ⟨rfl, huniq⟩
    rw [hrep] at hnodup
    exact le_antisymm (List.nodup_replicate.mp hnodup) (List.length_pos_of_mem hc)

variable {l : List β} {b : β}

theorem mem_unfold_iff (h : unfold items target n a = some l) :
    b ∈ l ↔ ∃ es x, Path (Edge items) target a es x ∧ .inl b ∈ items x := by
  rw [unfold_eq_trail] at h
  obtain ⟨t, ht, rfl⟩ := Option.map_eq_some_iff.mp h
  constructor
  · intro hb
    obtain ⟨⟨es, b'⟩, hp, rfl⟩ := List.mem_map.mp hb
    exact ⟨es, (mem_trail_iff ht).mp hp⟩
  · rintro ⟨es, hx⟩
    exact List.mem_map.mpr ⟨(es, b), (mem_trail_iff ht).mpr hx, rfl⟩

/-- **A walk finds it exactly once** if there is exactly one path to it. -/
theorem count_unfold_eq_one_iff [DecidableEq β] (hitems : ∀ a, (items a).Nodup) (h : unfold items target n a = some l) :
    l.count b = 1 ↔ ∃! es, ∃ x, Path (Edge items) target a es x ∧ .inl b ∈ items x := by
  rw [unfold_eq_trail] at h
  obtain ⟨t, ht, rfl⟩ := Option.map_eq_some_iff.mp h
  have hcount : (t.map Prod.snd).count b = (t.filter fun p => p.2 == b).length := by
    rw [List.count, List.countP_map, List.countP_eq_length_filter]
    rfl
  have hnodup := (trail_nodup hitems ht).filter fun p => p.2 == b
  rw [hcount, length_eq_one_iff_existsUnique hnodup]
  constructor
  · rintro ⟨⟨es, b'⟩, hp, huniq⟩
    obtain ⟨hmem, hb⟩ := List.mem_filter.mp hp
    obtain rfl : b' = b := by simpa using hb
    refine ⟨es, (mem_trail_iff ht).mp hmem, fun es' hes' => ?_⟩
    have hmem' : (es', b') ∈ t.filter fun p => p.2 == b' :=
      List.mem_filter.mpr ⟨(mem_trail_iff ht).mpr hes', beq_self_eq_true b'⟩
    exact congrArg Prod.fst (huniq (es', b') hmem')
  · rintro ⟨es, hes, huniq⟩
    refine ⟨(es, b), List.mem_filter.mpr ⟨(mem_trail_iff ht).mpr hes, by simp⟩, ?_⟩
    rintro ⟨es', b'⟩ hp
    obtain ⟨hmem, hb⟩ := List.mem_filter.mp hp
    obtain rfl : b' = b := by simpa using hb
    rw [huniq es' ((mem_trail_iff ht).mp hmem)]

end Lib
end WingOS
