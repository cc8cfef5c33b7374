/-
# What the JSON parser builds

`parse_json_value` comes to an end on every buffer and from every position, and
the value that it returns lies in the buffer: each key and each string is a piece
of it, without a quote. An object has a value for each of its keys, and an array
has no keys (`Shaped`). This is read off from the text that the value was parsed
from.

Key definitions: `Shaped`, `ShapedPart`.
Key theorems: `text_shaped`, `parseJsonValue_inside`.
-/
import WingOS.JsonSound

namespace WingOS
namespace Json

open Scan

/-- A piece of the buffer without a quote. -/
def Piece (buffer k : List UInt8) : Prop := k <:+: buffer ∧ quote ∉ k

/-- **The shape of a value** in a buffer, down to the last of its children. -/
inductive Shaped (buffer : List UInt8) : JsonValue → Prop
  | intro {j : JsonValue} (object : j.type = .object → j.keys.length = j.values.length)
      (array : j.type = .array → j.keys = []) (string : j.type = .string → Piece buffer j.raw)
      (keys : ∀ k ∈ j.keys, Piece buffer k) (values : ∀ v ∈ j.values, Shaped buffer v) : Shaped buffer j

/-- The shape of a value, of elements or of members. -/
def ShapedPart (buffer : List UInt8) : Part → Prop
  | .value v => Shaped buffer v.json
  | .elements values => ∀ v ∈ values, Shaped buffer v.json
  | .members members => ∀ m ∈ members, Piece buffer m.1 ∧ Shaped buffer m.2.json

variable {buffer k r l : List UInt8}

/-- A value that has no children. -/
theorem shaped_leaf {j : JsonValue} (hobject : j.type ≠ .object)
    (hstring : j.type = .string → Piece buffer j.raw)
    (hkeys : j.keys = []) (hvalues : j.values = []) : Shaped buffer j :=
  .intro (fun h => absurd h hobject) (fun _ => hkeys) hstring (by simp [hkeys]) (by simp [hvalues])

theorem shaped_array {values : List Value} (h : ShapedPart buffer (.elements values)) :
    Shaped buffer (Value.array values).json := by
  rw [Value.json]
  refine .intro (fun hc => by cases hc) (fun _ => rfl) (fun hc => by cases hc) (fun k hk => by cases hk) ?_
  intro j hj
  obtain ⟨v, hv, rfl⟩ := List.mem_map.mp hj
  exact h v hv

theorem shaped_object {members : List (List UInt8 × Value)} (h : ShapedPart buffer (.members members)) :
    Shaped buffer (Value.object members).json := by
  rw [Value.json]
  refine .intro (fun _ => ?_) (fun hc => by cases hc) (fun hc => by cases hc) (fun k hk => ?_) (fun j hj => ?_)
  · rw [List.length_map, List.length_map]
  · obtain ⟨m, hm, rfl⟩ := List.mem_map.mp hk
    exact (h m hm).1
  · obtain ⟨m, hm, rfl⟩ := List.mem_map.mp hj
    exact (h m hm).2

/-- A stretch between two others. -/
theorem infix_middle (l m r : List UInt8) {x : List UInt8} (h : x = l ++ (m ++ r)) : m <:+: x :=
  ⟨l, r, by rw [h, List.append_assoc]⟩

theorem keyText_piece {key : List UInt8} (h : KeyText key k) (hk : k <:+: buffer) : Piece buffer key := by
  obtain ⟨w, w', -, -, hquote, rfl⟩ := h
  refine ⟨List.IsInfix.trans ?_ hk, hquote⟩
  exact infix_middle (w ++ [quote]) key (quote :: (w' ++ [colon])) (by simp)

/-- **A value lies in its text.** -/
theorem text_shaped {p : Part} (h : Text Reads p r) : r <:+: buffer → ShapedPart buffer p := by
  induction h with
  | null _ | true _ | false _ | number _ _ =>
    intro _
    rw [ShapedPart, Value.json]
    exact shaped_leaf (by simp) (by simp) rfl rfl
  | @string w s _ hs =>
    intro hr
    rw [ShapedPart, Value.json]
    refine shaped_leaf (by simp) (fun _ => ⟨List.IsInfix.trans ?_ hr, hs⟩) rfl rfl
    exact infix_middle (w ++ [quote]) s [quote] (by simp)
  | emptyArray _ _ => exact fun _ => shaped_array fun v hv => by cases hv
  | @array w values r _ _ ih =>
    intro hr
    refine shaped_array (ih (List.IsInfix.trans ?_ hr))
    exact infix_middle (w ++ [openBracket]) r [closeBracket] (by simp)
  | emptyObject _ _ => exact fun _ => shaped_object fun m hm => by cases hm
  | @object w members r _ _ ih =>
    intro hr
    refine shaped_object (ih (List.IsInfix.trans ?_ hr))
    exact infix_middle (w ++ [openBrace]) r [closeBrace] (by simp)
  | element _ _ ih =>
    intro hr v hv
    rw [List.mem_singleton] at hv
    exact hv ▸ ih ((List.prefix_append _ _).isInfix.trans hr)
  | @elements v r w values r' _ _ _ ih ih' =>
    intro hr u hu
    rcases List.mem_cons.mp hu with rfl | hu
    · exact ih ((List.prefix_append _ _).isInfix.trans hr)
    · refine ih' (List.IsInfix.trans ?_ hr) u hu
      exact infix_middle (r ++ w ++ [comma]) r' [] (by simp)
  | @member key k v r w hk _ _ ih =>
    intro hr m hm
    rw [List.mem_singleton] at hm
    subst hm
    exact ⟨keyText_piece hk ((List.prefix_append _ _).isInfix.trans hr), ih ((infix_middle k r w rfl).trans hr)⟩
  | @members key k v r w members r' hk _ _ _ ih ih' =>
    intro hr m hm
    rcases List.mem_cons.mp hm with rfl | hm
    · exact ⟨keyText_piece hk ((List.prefix_append _ _).isInfix.trans hr), ih ((infix_middle k r _ rfl).trans hr)⟩
    · refine ih' (List.IsInfix.trans ?_ hr) m hm
      exact infix_middle (k ++ r ++ w ++ [comma]) r' [] (by simp)

/-- **The parser comes to an end in the buffer**, and what it returns lies in the buffer. -/
theorem parseJsonValue_inside (s : Scanner) :
    parseJsonValue s ≠ .spin ∧ ∀ j s', parseJsonValue s = .ok (j, s') →
      s'.buffer = s.buffer ∧ s.cursor < s'.cursor ∧ s'.cursor ≤ s.buffer.length ∧ Shaped s.buffer j := by
  have hyields : Yields s (parseJsonValue s) IsValue (BreaksOff .value s.rest) :=
    parseValue_yields (s.rest.length + 1) s (Nat.lt_succ_self _)
  refine ⟨fun hspin => ?_, fun j s' hok => ?_⟩
  · rw [hspin] at hyields
    exact hyields
  · rw [hok] at hyields
    obtain ⟨r, l, hrest, rfl, v, rfl, htext, -⟩ := hyields
    have hne : r ≠ [] := by
      obtain ⟨w, b, x, rfl, -⟩ := text_value_head htext
      simp
    have hpos := List.length_pos_iff.mpr hne
    have hlength := Scanner.length_rest hrest (by simp [hne])
    rw [List.length_append] at hlength
    refine ⟨rfl, ?_, ?_, text_shaped htext ?_⟩
    · show s.cursor < s.cursor + r.length
      omega
    · show s.cursor + r.length ≤ s.buffer.length
      omega
    · have hr : r <:+: s.rest := by
        rw [hrest]
        exact (List.prefix_append r l).isInfix
      exact hr.trans (List.drop_suffix _ _).isInfix

end Json
end WingOS
