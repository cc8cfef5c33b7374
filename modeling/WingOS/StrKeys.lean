/-
# Maps with string keys

`UMap<WStr, V>` looked up with a C string. `operator[]` compares each key of the
bucket with `WStr::operator==(const char *)` (`libcore/str_writer.hpp`), which
stops at the end of the shorter string: a string is equal to all its beginnings
and all its continuations. The overload for `Str` compares the lengths first
(`eqStr_iff`). The lookup finds the entry of its key as long as no beginning or
continuation of the key is before it in its bucket (`string_lookup_iff`).

Key definitions: `CStr`, `eqCStr`, `eqStr`, `strHash`, `lookup`, `FindsOwn`.
Key theorems: `eqCStr_iff`, `eqStr_iff`, `placed_step`, `string_lookup_iff`.
-/
import WingOS.UMapRuns

namespace WingOS
namespace StrKeys

open Lib (run)

/-- The characters of a `WStr` or a `Str`. -/
abbrev Str := List (BitVec 8)

/-- The characters before the NUL of a C string. -/
structure CStr where
  chars : Str
  no_nul : 0 ∉ chars

/-- `str[i]`. -/
def CStr.char (s : CStr) (i : ℕ) : BitVec 8 := s.chars.getD i 0

/-- `WStr::operator==(const char *)`. -/
def eqCStr : Str → (ℕ → BitVec 8) → Bool
  | [], _ => true
  | c :: data, other =>
    if other 0 = 0 then true
    else if c ≠ other 0 then false
    else eqCStr data fun i => other (i + 1)

/-- `WStr::operator==(Str const &)`. -/
def eqStr (data other : Str) : Bool :=
  if data.length ≠ other.length then false
  else (List.range data.length).all fun i => data[i]? = other[i]?

/-- `hash(Str const &)`; a character is signed. -/
def strHash (s : Str) : ℕ :=
  (s.foldl (fun (hash : BitVec 64) c => c.signExtend 64 + (hash <<< 6) + (hash <<< 16) - hash) 0).toNat

/-- One string is a beginning of the other. -/
def Comparable (a b : Str) : Prop := a <+: b ∨ b <+: a

variable {V : Type}

/-- The entry whose value `operator[](const char *)` returns; `none` is `unreachable$`. -/
def lookup (m : UMap Str V) (key : CStr) : Option (Str × V) :=
  (m.bucket strHash key.chars).find? fun e => eqCStr e.1 key.char

/-- `operator[]` returns the value of the key, and never that of another one. -/
structure FindsOwn (m : UMap Str V) (key : CStr) : Prop where
  own (e : Str × V) (h : lookup m key = some e) : e.1 = key.chars
  found (h : key.chars ∈ m.entries.map Prod.fst) : ∃ e, lookup m key = some e

theorem eqCStr_getD : ∀ (data : Str) {other : Str}, 0 ∉ other →
    (eqCStr data (fun i => other.getD i 0) = true ↔ Comparable data other)
  | [], other, _ => iff_of_true rfl (Or.inl (List.nil_prefix))
  | c :: data, [], _ => iff_of_true rfl (Or.inr (List.nil_prefix))
  | c :: data, d :: other, h => by
    rw [List.mem_cons, not_or] at h
    have ih := eqCStr_getD data h.2
    have hd : ¬ d = 0 := fun hc => h.1 hc.symm
    unfold Comparable at ih ⊢
    unfold eqCStr
    simp only [List.getD_cons_zero, List.getD_cons_succ, if_neg hd]
    rw [List.cons_prefix_cons, List.cons_prefix_cons]
    by_cases hcd : c = d
    · rw [if_neg (not_not.mpr hcd), ih]
      simp [hcd]
    · rw [if_pos hcd]
      simp [hcd, Ne.symm hcd]

/-- The comparison with a C string goes to the end of the shorter one. -/
theorem eqCStr_iff (data : Str) (s : CStr) : eqCStr data s.char = true ↔ Comparable data s.chars :=
  eqCStr_getD data s.no_nul

theorem eqStr_iff (data other : Str) : eqStr data other = true ↔ data = other := by
  unfold eqStr
  by_cases hlen : data.length = other.length
  · rw [if_neg (not_not.mpr hlen), List.all_eq_true]
    constructor
    · intro h
      apply List.ext_getElem?
      intro i
      by_cases hi : i < data.length
      · exact of_decide_eq_true (h i (List.mem_range.mpr hi))
      · rw [List.getElem?_eq_none (by omega), List.getElem?_eq_none (by omega)]
    · rintro rfl i _
      exact decide_eq_true rfl
  · rw [if_pos hlen]
    exact iff_of_false Bool.false_ne_true fun hc => hlen (congrArg List.length hc)

theorem comparable_self (s : Str) : Comparable s s := Or.inl (List.prefix_refl s)

/-- Each operation leaves each entry in the bucket of its key. -/
theorem placed_step {s s' : UMap Str V × List V} {op : UMapOp Str V} (h : UMap.Placed strHash s.1.buckets)
    (hs : UMap.step strHash s op = some s') : UMap.Placed strHash s'.1.buckets := by
  have herase : ∀ k, UMap.Placed strHash
      (s.1.buckets.modify (strHash k % s.1.buckets.length) (·.eraseP fun e => e.1 = k)) :=
    fun k => UMap.placed_modify h fun b e he => Or.inl (List.mem_of_mem_eraseP he)
  cases op with
  | insert k v =>
    cases hs
    exact (UMap.insert_spec h v).1
  | remove k =>
    cases hs
    unfold UMap.remove
    cases (s.1.bucket strHash k).find? fun e => e.1 = k with
    | none => exact h
    | some e => exact herase k
  | moveOut k =>
    simp only [UMap.step, UMap.stepWith, UMap.moveOut, Option.map_eq_some_iff] at hs
    obtain ⟨⟨v, m⟩, hm, rfl⟩ := hs
    cases hfind : (s.1.bucket strHash k).find? fun e => e.1 = k with
    | none =>
      rw [hfind] at hm
      cases hm
    | some e =>
      rw [hfind] at hm
      cases hm
      exact herase k
  | clear =>
    cases hs
    intro i b hb
    cases hb

/-- The first entry of the bucket that the comparison accepts. -/
theorem findsOwn_iff {m : UMap Str V} (hplaced : UMap.Placed strHash m.buckets) (key : CStr) :
    FindsOwn m key ↔ ∀ (i : ℕ) (e : Str × V), (m.bucket strHash key.chars)[i]? = some e →
      Comparable e.1 key.chars →
      ∃ j ≤ i, ∃ e', (m.bucket strHash key.chars)[j]? = some e' ∧ e'.1 = key.chars := by
  have haccepts : ∀ e : Str × V, eqCStr e.1 key.char = true ↔ Comparable e.1 key.chars :=
    fun e => eqCStr_iff e.1 key
  constructor
  · intro hown i e he hcomp
    cases hfind : lookup m key with
    | none => exact absurd ((haccepts e).mpr hcomp) (List.find?_eq_none.mp hfind e (List.mem_of_getElem? he))
    | some e₀ =>
      obtain ⟨-, j, hj, hje, hfirst⟩ := List.find?_eq_some_iff_getElem.mp hfind
      refine ⟨j, ?_, e₀, by rw [← hje]; exact List.getElem?_eq_getElem hj, hown.own e₀ hfind⟩
      by_contra hij
      obtain ⟨hi, rfl⟩ := List.getElem?_eq_some_iff.mp he
      have hnot := hfirst i (by omega)
      rw [(haccepts _).mpr hcomp] at hnot
      cases hnot
  · intro hfirst
    refine ⟨fun e he => ?_, fun hmem => ?_⟩
    · obtain ⟨hacc, i, hi, rfl, hnone⟩ := List.find?_eq_some_iff_getElem.mp he
      obtain ⟨j, hji, e', he', hkey⟩ := hfirst i _ (List.getElem?_eq_getElem hi) ((haccepts _).mp hacc)
      obtain ⟨hj, rfl⟩ := List.getElem?_eq_some_iff.mp he'
      rcases Nat.lt_or_eq_of_le hji with hlt | rfl
      · have hnot := hnone j hlt
        have hcomp : Comparable (m.bucket strHash key.chars)[j].1 key.chars := by
          rw [hkey]
          exact comparable_self _
        rw [(haccepts _).mpr hcomp] at hnot
        cases hnot
      · exact hkey
    · obtain ⟨e, he, hkey⟩ := List.mem_map.mp hmem
      rw [UMap.mem_entries_iff hplaced, hkey] at he
      cases hfind : lookup m key with
      | none =>
        have hcomp : Comparable e.1 key.chars := by
          rw [hkey]
          exact comparable_self _
        exact absurd ((haccepts e).mpr hcomp) (List.find?_eq_none.mp hfind e he)
      | some e₀ => exact ⟨e₀, rfl⟩

/-- **A string finds its own key** in every map exactly when no beginning or continuation of it comes
before it in its bucket; the comparison agrees with the one for `Str` on all other strings. -/
theorem string_lookup_iff (data : Str) (key : CStr) (ops : List (UMapOp Str V)) (m : UMap Str V) (out : List V)
    (hrun : run (UMap.step strHash) ops ({}, []) = some (m, out)) :
    (eqCStr data key.char = eqStr data key.chars ↔ Comparable data key.chars → data = key.chars) ∧
    (FindsOwn m key ↔ ∀ (i : ℕ) (e : Str × V), (m.bucket strHash key.chars)[i]? = some e →
      Comparable e.1 key.chars →
      ∃ j ≤ i, ∃ e', (m.bucket strHash key.chars)[j]? = some e' ∧ e'.1 = key.chars) := by
  refine ⟨?_, findsOwn_iff ?_ key⟩
  · rw [Bool.eq_iff_iff, eqCStr_iff, eqStr_iff]
    refine ⟨fun h => h.mp, fun h => ⟨h, ?_⟩⟩
    rintro rfl
    exact comparable_self _
  · exact Lib.run_invariant (P := fun s : UMap Str V × List V => UMap.Placed strHash s.1.buckets)
      (fun _ _ _ => placed_step) (UMap.ok_empty strHash).placed hrun

/-- `"ab"`, which shares its bucket with `"a"`. -/
def ab : CStr := ⟨[0x61, 0x62], by decide⟩

/-- A map that has the key `"a"` only gives its value for `"ab"`, and so does one that has both. -/
theorem lookup_finds_beginning :
    ((∃ m : UMap Str ℕ, run (UMap.step strHash) [.insert [0x61] 1] ({}, []) = some (m, []) ∧
      lookup m ab = some ([0x61], 1)) ∧
    ∃ m : UMap Str ℕ, run (UMap.step strHash) [.insert [0x61] 1, .insert ab.chars 2] ({}, []) = some (m, []) ∧
      lookup m ab = some ([0x61], 1)) ∧
    eqCStr [0x61] ab.char ≠ eqStr [0x61] ab.chars :=
  ⟨⟨⟨_, rfl, by decide⟩, ⟨_, rfl, by decide⟩⟩, by decide⟩

/-- A map with two keys in the same bucket, neither a beginning of the other. -/
theorem string_lookup_iff_other :
    ∃ m : UMap Str ℕ, run (UMap.step strHash) [.insert [0x61, 0x72] 1, .insert [0x61, 0x62] 2] ({}, []) =
      some (m, []) ∧ FindsOwn m ab := by
  refine ⟨_, rfl, (string_lookup_iff [] ab [.insert [0x61, 0x72] 1, .insert [0x61, 0x62] 2] _ [] rfl).2.mpr ?_⟩
  intro i e he hcomp
  match i with
  | 0 =>
    obtain rfl := Option.some.inj he
    exact absurd hcomp (by unfold Comparable; decide)
  | 1 => exact ⟨1, le_rfl, e, he, by obtain rfl := Option.some.inj he; rfl⟩
  | i + 2 => cases he

end StrKeys
end WingOS
