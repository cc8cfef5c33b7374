/-
# The iterator of the hash map

`UMap::UMapIterator`: the bucket and the place in it where the iterator stands,
and a pointer to that entry, which is null at the end. Going on from the last
entry of a bucket skips the empty buckets that follow.

What is left to visit (`rest`) starts with the entry the iterator stands on
(`next_spec`), and at `begin()` it is all entries of the map, in the order of
the buckets; so a loop from `begin()` to `end()` visits these (`visits_begin`).

Key definitions: `UMapIterator`, `UMap.begin`, `UMap.next`, `UMap.visits`.
Key theorems: `next_spec`, `visits_begin`.
-/
import WingOS.UMap

namespace WingOS

/-- `UMapIterator`. `current` is the bucket and the index of the entry it points to. -/
structure UMapIterator where
  current : Option (ℕ × ℕ) := none
  bucketGroup : ℕ := 0
  bucketIngroup : ℕ := 0

namespace UMap

variable {K V : Type*}

/-- The loop over `_bucket_group` that stops at a bucket with entries, with `k`
buckets left. -/
def skipEmpty (buckets : List (List (K × V))) : ℕ → ℕ → ℕ
  | 0, group => group
  | k + 1, group =>
    if (buckets.getD group []).length > 0 then group else skipEmpty buckets k (group + 1)

/-- The first entry from the bucket `group` on. -/
def seek (m : UMap K V) (group : ℕ) : UMapIterator :=
  let group := skipEmpty m.buckets (m.buckets.length - group) group
  { current := if group < m.buckets.length then some (group, 0) else none
    bucketGroup := group
    bucketIngroup := 0 }

def begin (m : UMap K V) : UMapIterator := m.seek 0

/-- `operator++`. -/
def next (m : UMap K V) (it : UMapIterator) : UMapIterator :=
  match it.current with
  | none => it
  | some _ =>
    let ingroup := it.bucketIngroup + 1
    if ingroup ≥ (m.buckets.getD it.bucketGroup []).length then m.seek (it.bucketGroup + 1)
    else { it with current := some (it.bucketGroup, ingroup), bucketIngroup := ingroup }

/-- `operator*`. -/
def deref (m : UMap K V) (it : UMapIterator) : Option (K × V) :=
  it.current.bind fun p => (m.buckets.getD p.1 [])[p.2]?

/-- What a loop over the map visits from `it` to `end()`, in `fuel` rounds. -/
def visits (m : UMap K V) : ℕ → UMapIterator → Option (List (K × V))
  | 0, _ => none
  | fuel + 1, it =>
    if it.current = none then some []
    else (m.deref it).bind fun e => (m.visits fuel (m.next it)).map (e :: ·)

/-! ### What is left to visit -/

variable {m : UMap K V} {it : UMapIterator}

/-- The entries from the one the iterator points to. -/
def rest (m : UMap K V) (it : UMapIterator) : List (K × V) :=
  match it.current with
  | none => []
  | some (g, i) => (m.buckets.getD g []).drop i ++ (m.buckets.drop (g + 1)).flatten

/-- The pointer is null, or where the counters say and at an entry. -/
def Stands (m : UMap K V) (it : UMapIterator) : Prop :=
  ∀ p, it.current = some p → p = (it.bucketGroup, it.bucketIngroup) ∧
    it.bucketGroup < m.buckets.length ∧ it.bucketIngroup < (m.buckets.getD it.bucketGroup []).length

theorem drop_flatten {bs : List (List (K × V))} {g : ℕ} (hg : g < bs.length) :
    (bs.drop g).flatten = bs.getD g [] ++ (bs.drop (g + 1)).flatten := by
  rw [List.drop_eq_getElem_cons hg, List.flatten_cons, List.getD_eq_getElem?_getD,
    List.getElem?_eq_getElem hg, Option.getD_some]

/-- The buckets that are skipped have no entries, and the one it stops at has one. -/
theorem skipEmpty_spec (bs : List (List (K × V))) : ∀ (k g : ℕ), g + k = bs.length →
    (bs.drop (skipEmpty bs k g)).flatten = (bs.drop g).flatten ∧
      (skipEmpty bs k g < bs.length → 0 < (bs.getD (skipEmpty bs k g) []).length)
  | 0, g, hk => ⟨rfl, fun hlt => absurd hk (Nat.ne_of_lt hlt)⟩
  | k + 1, g, hk => by
    rw [skipEmpty]
    by_cases hentries : (bs.getD g []).length > 0
    · rw [if_pos hentries]
      exact ⟨rfl, fun _ => hentries⟩
    · rw [if_neg hentries]
      obtain ⟨hrest, hstop⟩ := skipEmpty_spec bs k (g + 1) (by omega)
      refine ⟨?_, hstop⟩
      have hnil : bs.getD g [] = [] := List.length_eq_zero_iff.mp (by omega)
      rw [hrest, drop_flatten (show g < bs.length by omega), hnil, List.nil_append]

theorem seek_spec {g : ℕ} (hg : g ≤ m.buckets.length) :
    m.Stands (m.seek g) ∧ m.rest (m.seek g) = (m.buckets.drop g).flatten := by
  obtain ⟨hrest, hstop⟩ := skipEmpty_spec m.buckets (m.buckets.length - g) g (by omega)
  by_cases hlt : skipEmpty m.buckets (m.buckets.length - g) g < m.buckets.length
  · have hcurrent : (m.seek g).current = some ((m.seek g).bucketGroup, 0) := if_pos hlt
    refine ⟨fun p hp => ⟨?_, hlt, hstop hlt⟩, ?_⟩
    · exact (Option.some.inj (hcurrent.symm.trans hp)).symm
    · unfold rest
      rw [hcurrent, ← hrest]
      exact (drop_flatten hlt).symm
  · have hcurrent : (m.seek g).current = none := if_neg hlt
    refine ⟨fun p hp => ?_, ?_⟩
    · rw [hcurrent] at hp
      cases hp
    · unfold rest
      rw [hcurrent, ← hrest, List.drop_eq_nil_of_le (Nat.not_lt.mp hlt)]
      rfl

/-- **One entry**: the iterator points to the first of those left, and goes on
to the second. -/
theorem next_spec (h : m.Stands it) (hcurrent : it.current ≠ none) :
    m.Stands (m.next it) ∧ ∃ e, m.deref it = some e ∧ m.rest it = e :: m.rest (m.next it) := by
  obtain ⟨p, hp⟩ := Option.ne_none_iff_exists'.mp hcurrent
  obtain ⟨rfl, hgroup, hingroup⟩ := h p hp
  have hderef : m.deref it = some ((m.buckets.getD it.bucketGroup [])[it.bucketIngroup]) := by
    unfold deref
    rw [hp]
    exact List.getElem?_eq_getElem hingroup
  have hrest : m.rest it = (m.buckets.getD it.bucketGroup [])[it.bucketIngroup] ::
      ((m.buckets.getD it.bucketGroup []).drop (it.bucketIngroup + 1) ++
        (m.buckets.drop (it.bucketGroup + 1)).flatten) := by
    unfold rest
    rw [hp]
    dsimp only
    rw [List.drop_eq_getElem_cons hingroup, List.cons_append]
  rw [hrest]
  unfold next
  rw [hp]
  dsimp only
  by_cases hlast : it.bucketIngroup + 1 ≥ (m.buckets.getD it.bucketGroup []).length
  · rw [if_pos hlast]
    obtain ⟨hstands, hseek⟩ := seek_spec (m := m) (show it.bucketGroup + 1 ≤ m.buckets.length from hgroup)
    refine ⟨hstands, _, hderef, ?_⟩
    rw [hseek, List.drop_eq_nil_of_le hlast, List.nil_append]
  · rw [if_neg hlast]
    refine ⟨fun p hp => ⟨(Option.some.inj hp).symm, hgroup, Nat.not_le.mp hlast⟩, _, hderef, rfl⟩

theorem visits_eq_rest : ∀ (fuel : ℕ) (it : UMapIterator), m.Stands it →
    (m.rest it).length < fuel → m.visits fuel it = some (m.rest it)
  | 0, _, _, hfuel => absurd hfuel (Nat.not_lt_zero _)
  | fuel + 1, it, h, hfuel => by
    rw [visits]
    by_cases hcurrent : it.current = none
    · rw [if_pos hcurrent, rest, hcurrent]
    · obtain ⟨hnext, e, hderef, hrest⟩ := next_spec h hcurrent
      rw [if_neg hcurrent, hderef, Option.bind_some, hrest]
      rw [hrest, List.length_cons] at hfuel
      rw [visits_eq_rest fuel (m.next it) hnext (by omega), Option.map_some]

/-- **The loop** over the map visits its entries, whatever the buckets are. -/
theorem visits_begin {fuel : ℕ} (hfuel : m.entries.length < fuel) :
    m.visits fuel m.begin = some m.entries := by
  obtain ⟨hstands, hrest⟩ := seek_spec (m := m) (Nat.zero_le m.buckets.length)
  have hall : m.rest m.begin = m.entries := hrest
  rw [← hall] at hfuel ⊢
  exact visits_eq_rest fuel m.begin hstands hfuel

/-- Empty buckets first, in the middle and last. -/
example : ({ buckets := [[], [(1, 2), (3, 4)], [], [], [(5, 6)], []] } : UMap ℕ ℕ).visits 4
    (UMap.begin { buckets := [[], [(1, 2), (3, 4)], [], [], [(5, 6)], []] }) =
      some [(1, 2), (3, 4), (5, 6)] := by decide

end UMap
end WingOS
