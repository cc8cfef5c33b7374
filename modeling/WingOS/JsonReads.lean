/-
# The JSON parser reads every text

A text of a value is read to its end, whatever follows it, or the parser stops
because too little follows it (`text_complete`). If five bytes or more do, and
the first is not a digit, `parse_json_value` gives exactly the value, with its
elements and keys in the order of the text (`parseJsonValue_rendering`). A text
that breaks off stops the parser (`breaksOff_aborts`).

Key definitions: `Gives`, `Complete`, `Renders`.
Key theorems: `text_complete`, `parseJsonValue_rendering`, `breaksOff_aborts`.
-/
import WingOS.JsonSteps

namespace WingOS
namespace Json

open Scan

variable {s s' : Scanner} {b c : UInt8} {d k l r w x : List UInt8}

/-! ### The first byte -/

theorem cons_not_starts (hne : b ≠ c) : ¬c :: k <+: b :: x := fun h => hne (List.cons_prefix_cons.mp h).1.symm

theorem not_true_starts (hne : b ≠ 0x74) : ¬trueText <+: b :: x := cons_not_starts hne

theorem not_false_starts (hne : b ≠ 0x66) : ¬falseText <+: b :: x := cons_not_starts hne

theorem not_null_starts (hne : b ≠ 0x6e) : ¬nullText <+: b :: x := cons_not_starts hne

/-- A numeral begins with a sign or a digit. -/
theorem numeral_head_ne (h : Numeral (b :: d)) (hminus : c ≠ minus) (hplus : c ≠ plus) (hdigit : isDigit c = false) :
    b ≠ c := by
  rintro rfl
  have hsplit : splitSign (b :: d) = (false, b :: d) := by rw [splitSign, if_neg hminus, if_neg hplus]
  have hb := h.2 b (by rw [hsplit]; exact List.mem_cons_self)
  rw [hdigit] at hb
  exact absurd hb Bool.false_ne_true

theorem numeral_head_noSpace (h : Numeral (b :: d)) : isSpace b = false := by
  have hne : ∀ c, c ≠ minus → c ≠ plus → isDigit c = false → b ≠ c := fun c => numeral_head_ne h
  simp only [isSpace, Bool.or_eq_false_iff, decide_eq_false_iff_not]
  exact ⟨⟨⟨hne _ (by decide) (by decide) (by decide), hne _ (by decide) (by decide) (by decide)⟩,
    hne _ (by decide) (by decide) (by decide)⟩, hne _ (by decide) (by decide) (by decide)⟩

/-! ### Texts are read to their end -/

/-- The value is read, or the program is stopped where `B` allows it. -/
def Gives (o : Outcome (JsonValue × Scanner)) (j : JsonValue) (s' : Scanner) (B : Prop) : Prop :=
  o = .ok (j, s') ∨ o = .abort ∧ B

theorem Gives.bind {o : Outcome (JsonValue × Scanner)} {j j' : JsonValue} {B B' : Prop}
    {f : JsonValue × Scanner → Outcome (JsonValue × Scanner)} (h : Gives o j s B)
    (hB : B → B') (hf : Gives (f (j, s)) j' s' B') : Gives (o.bind f) j' s' B' := by
  rcases h with rfl | ⟨rfl, hb⟩
  · exact hf
  · exact Or.inr ⟨rfl, hB hb⟩

/-- What it is to read a text to its end. -/
def Complete : Part → List UInt8 → Prop
  | .value v, r => ∀ n s l, s.rest = r ++ l → Ends v l → s.rest.length < n →
      Gives (parseValue n s) v.json (s.advance r.length) (l.length < 4)
  | .elements values, r => ∀ m n acc s l, s.rest = r ++ closeBracket :: l → s.rest.length < m → s.rest.length < n →
      Gives (arrayFrom (parseValue m) n acc s) { type := .array, values := acc ++ values.map Value.json }
        (s.advance (r.length + 1)) (l.length < 4)
  | .members members, r => ∀ m n keys acc s l, s.rest = r ++ closeBrace :: l → s.rest.length < m →
      s.rest.length < n → Gives (objectFrom (parseValue m) n keys acc s)
        { type := .object, keys := keys ++ members.map Prod.fst, values := acc ++ members.map fun m => m.2.json }
        (s.advance (r.length + 1)) (l.length < 4)

/-- A word, a string or an integer, and what follows it. -/
theorem scalar_gives {n : ℕ} {j : JsonValue} (h : s.rest = w ++ (b :: x) ++ l) (hn : s.rest.length < n)
    (hw : Blanks w) (hb : isSpace b = false) (hbrace : b ≠ openBrace) (hbracket : b ≠ openBracket)
    (htrue : ¬trueText <+: b :: (x ++ l))
    (hscalar : falseText.length ≤ (b :: (x ++ l)).length →
      parseScalar (s.advance w.length) = .ok (j, (s.advance w.length).advance (b :: x).length)) :
    Gives (parseValue n s) j (s.advance (w ++ b :: x).length) (l.length < 4) := by
  obtain ⟨n, rfl⟩ : ∃ m, n = m + 1 := ⟨n - 1, by omega⟩
  rw [List.append_assoc] at h
  have hrest : (s.advance w.length).rest = b :: (x ++ l) := Scanner.rest_advance h
  rw [parseValue_scalar n h hw hb hbrace hbracket]
  by_cases hlen : falseText.length ≤ (b :: (x ++ l)).length
  · rw [hscalar hlen, Scanner.advance_advance, ← List.length_append]
    exact Or.inl rfl
  · refine Or.inr ⟨parseScalar_short hrest (by simp) (Nat.lt_of_not_le hlen) htrue, ?_⟩
    rw [List.length_cons, List.length_append, show falseText.length = 5 from rfl] at hlen
    omega

theorem complete_null (hw : Blanks w) : Complete (.value .null) (w ++ nullText) := by
  intro n s l h _ hn
  refine scalar_gives h hn hw (by decide) (by decide) (by decide) (not_true_starts (by decide)) fun hlen => ?_
  have hrest : (s.advance w.length).rest = nullText ++ l := Scanner.rest_advance (by rw [h, List.append_assoc])
  have hfalse : ¬falseText <+: nullText ++ l := not_false_starts (by decide)
  rw [parseScalar_eq hrest hlen (not_true_starts (by decide)), if_neg hfalse, if_pos (List.prefix_append _ _)]
  rfl

theorem complete_false (hw : Blanks w) : Complete (.value (.boolean false)) (w ++ falseText) := by
  intro n s l h _ hn
  refine scalar_gives h hn hw (by decide) (by decide) (by decide) (not_true_starts (by decide)) fun hlen => ?_
  have hrest : (s.advance w.length).rest = falseText ++ l := Scanner.rest_advance (by rw [h, List.append_assoc])
  rw [parseScalar_eq hrest hlen (not_true_starts (by decide)), if_pos (List.prefix_append _ _)]
  rfl

theorem complete_true (hw : Blanks w) : Complete (.value (.boolean true)) (w ++ trueText) := by
  intro n s l h _ hn
  obtain ⟨n, rfl⟩ : ∃ m, n = m + 1 := ⟨n - 1, by omega⟩
  rw [List.append_assoc] at h
  rw [parseValue_scalar n h hw (by decide) (by decide) (by decide), parseScalar_true (Scanner.rest_advance h),
    Scanner.advance_advance, ← List.length_append]
  exact Or.inl rfl

theorem complete_number {n : ℤ} (hw : Blanks w) (hd : Reads n d) : Complete (.value (.number n)) (w ++ d) := by
  intro m s l h hl hm
  obtain ⟨hnumeral, rfl⟩ := hd
  cases d with
  | nil => exact absurd rfl hnumeral.ne_nil
  | cons b d =>
    have hne : ∀ c, c ≠ minus ∧ c ≠ plus ∧ isDigit c = false → b ≠ c := fun c hc =>
      numeral_head_ne hnumeral hc.1 hc.2.1 hc.2.2
    have htrue : ¬trueText <+: b :: (d ++ l) := not_true_starts (hne _ (by decide))
    have hfalse : ¬falseText <+: b :: (d ++ l) := not_false_starts (hne _ (by decide))
    have hnull : ¬nullText <+: b :: (d ++ l) := not_null_starts (hne _ (by decide))
    have hspace := numeral_head_noSpace hnumeral
    refine scalar_gives h hm hw hspace (hne openBrace (by decide)) (hne openBracket (by decide)) htrue fun hlen => ?_
    have hrest : (s.advance w.length).rest = b :: (d ++ l) := Scanner.rest_advance (by rw [h, List.append_assoc]; rfl)
    rw [parseScalar_eq hrest hlen htrue, if_neg hfalse, if_neg hnull,
      parseStringOrInt_int hrest hspace (hne quote (by decide)), parseInt_eq (d := b :: d) hrest hnumeral hl]
    rfl

theorem complete_string (hw : Blanks w) (hk : quote ∉ k) :
    Complete (.value (.string k)) (w ++ quote :: (k ++ [quote])) := by
  intro n s l h _ hn
  refine scalar_gives h hn hw (by decide) (by decide) (by decide) (not_true_starts (by decide)) fun hlen => ?_
  have hrest : (s.advance w.length).rest = quote :: (k ++ quote :: l) := Scanner.rest_advance (by
    rw [h]
    simp only [List.append_assoc, List.cons_append, List.nil_append])
  have hlen' : falseText.length ≤ (quote :: (k ++ quote :: l)).length := by
    simp only [List.length_cons, List.length_append, List.length_nil] at hlen ⊢
    omega
  have hfalse : ¬falseText <+: quote :: (k ++ quote :: l) := not_false_starts (by decide)
  have hnull : ¬nullText <+: quote :: (k ++ quote :: l) := not_null_starts (by decide)
  rw [parseScalar_eq hrest hlen' (not_true_starts (by decide)), if_neg hfalse, if_neg hnull, parseString_eq hrest hk]
  simp only [List.length_cons, List.length_append, List.length_nil]

/-- A value does not begin with a closing bracket. -/
theorem text_value_head {v : Value} (h : Text Reads (.value v) r) :
    ∃ w b x, r = w ++ b :: x ∧ Blanks w ∧ isSpace b = false ∧ b ≠ closeBracket := by
  cases h with
  | null hw => exact ⟨_, _, _, rfl, hw, by decide, by decide⟩
  | true hw => exact ⟨_, _, _, rfl, hw, by decide, by decide⟩
  | false hw => exact ⟨_, _, _, rfl, hw, by decide, by decide⟩
  | @number _ _ d hw hd =>
    cases d with
    | nil => exact absurd rfl hd.1.ne_nil
    | cons b d =>
      exact ⟨_, b, d, rfl, hw, numeral_head_noSpace hd.1, numeral_head_ne hd.1 (by decide) (by decide) (by decide)⟩
  | string hw _ => exact ⟨_, _, _, rfl, hw, by decide, by decide⟩
  | emptyArray hw _ => exact ⟨_, _, _, rfl, hw, by decide, by decide⟩
  | array hw _ => exact ⟨_, _, _, rfl, hw, by decide, by decide⟩
  | emptyObject hw _ => exact ⟨_, _, _, rfl, hw, by decide, by decide⟩
  | object hw _ => exact ⟨_, _, _, rfl, hw, by decide, by decide⟩

theorem text_elements_head {values : List Value} (h : Text Reads (.elements values) r) :
    ∃ w b x, r = w ++ b :: x ∧ Blanks w ∧ isSpace b = false ∧ b ≠ closeBracket := by
  cases h with
  | element hv _ =>
    obtain ⟨w, b, x, rfl, hw, hb, hne⟩ := text_value_head hv
    exact ⟨w, b, _, by rw [List.append_assoc, List.cons_append], hw, hb, hne⟩
  | elements hv _ _ =>
    obtain ⟨w, b, x, rfl, hw, hb, hne⟩ := text_value_head hv
    exact ⟨w, b, _, by rw [List.append_assoc, List.cons_append], hw, hb, hne⟩

theorem keyText_head {key : List UInt8} (h : KeyText key k) : ∃ w x, k = w ++ quote :: x ∧ Blanks w := by
  obtain ⟨w, w', hw, -, -, rfl⟩ := h
  exact ⟨w, _, rfl, hw⟩

theorem text_members_head {members : List (List UInt8 × Value)} (h : Text Reads (.members members) r) :
    ∃ w x, r = w ++ quote :: x ∧ Blanks w := by
  cases h with
  | member hk _ _ =>
    obtain ⟨w, x, rfl, hw⟩ := keyText_head hk
    exact ⟨w, _, by rw [List.append_assoc, List.cons_append], hw⟩
  | members hk _ _ _ =>
    obtain ⟨w, x, rfl, hw⟩ := keyText_head hk
    exact ⟨w, _, by rw [List.append_assoc, List.cons_append], hw⟩

theorem not_digit_of_space (hb : isSpace b = true) : isDigit b = false := by
  simp only [isSpace, Bool.or_eq_true, decide_eq_true_eq] at hb
  rcases hb with ((rfl | rfl) | rfl) | rfl
  all_goals decide

/-- White space and a token end a value. -/
theorem ends_spaces (hw : Blanks w) (hb : isDigit b = false) (v : Value) : Ends v (w ++ b :: l) := by
  have hdigit : NoDigit (w ++ b :: l) := by
    intro c hc
    cases w with
    | nil => exact Option.some.inj hc ▸ hb
    | cons b' w => exact Option.some.inj hc ▸ not_digit_of_space (hw b' List.mem_cons_self)
  cases v with
  | number n => exact hdigit
  | _ => trivial

/-- A text in brackets or braces, and what is behind the first of them. -/
theorem rest_enclosed {inner : List UInt8} {o c : UInt8} (h : s.rest = (w ++ o :: (inner ++ [c])) ++ l) :
    s.rest = w ++ ([o] ++ (inner ++ c :: l)) ∧ (s.advance (w.length + 1)).rest = inner ++ c :: l := by
  have hcut : s.rest = (w ++ [o]) ++ (inner ++ c :: l) := by
    rw [h]
    simp only [List.append_assoc, List.cons_append, List.nil_append]
  have hrest := Scanner.rest_advance hcut
  rw [List.length_append, List.length_singleton] at hrest
  rw [List.append_assoc] at hcut
  exact ⟨hcut, hrest⟩

theorem enclosed_shorter {inner : List UInt8} {o c : UInt8} {n : ℕ} (h : s.rest = (w ++ o :: (inner ++ [c])) ++ l)
    (hn : s.rest.length < n + 1) : (s.advance (w.length + 1)).rest.length < n := by
  obtain ⟨hcut, hrest⟩ := rest_enclosed h
  rw [hcut] at hn
  rw [hrest]
  simp only [List.length_append, List.length_cons, List.length_nil] at hn ⊢
  omega

theorem complete_emptyArray {w' : List UInt8} (hw : Blanks w) (hw' : Blanks w') :
    Complete (.value (.array [])) (w ++ openBracket :: (w' ++ [closeBracket])) := by
  intro n s l h _ hn
  obtain ⟨n, rfl⟩ : ∃ m, n = m + 1 := ⟨n - 1, by omega⟩
  obtain ⟨hcut, hrest⟩ := rest_enclosed h
  rw [parseValue_array n hcut hw, parseArray_empty hrest hw', Scanner.advance_advance]
  refine Or.inl (congrArg (fun k => Outcome.ok (_, s.advance k)) ?_)
  simp only [List.length_append, List.length_cons, List.length_nil]
  omega

theorem complete_array {values : List Value} (hw : Blanks w) (ht : Text Reads (.elements values) r)
    (ih : Complete (.elements values) r) :
    Complete (.value (.array values)) (w ++ openBracket :: (r ++ [closeBracket])) := by
  intro n s l h _ hn
  obtain ⟨n, rfl⟩ : ∃ m, n = m + 1 := ⟨n - 1, by omega⟩
  obtain ⟨hcut, hrest⟩ := rest_enclosed h
  have hshorter := enclosed_shorter h hn
  obtain ⟨w', b, x, rfl, hw', hb, hclose⟩ := text_elements_head ht
  have hfirst : (s.advance (w.length + 1)).rest = w' ++ b :: (x ++ closeBracket :: l) := by
    rw [hrest, List.append_assoc, List.cons_append]
  have hgives := ih n n [] _ l hrest hshorter hshorter
  rw [parseValue_array n hcut hw, parseArray_from hfirst hw' hb hclose]
  rw [List.nil_append, Scanner.advance_advance] at hgives
  rw [Value.json]
  simp only [List.length_append, List.length_cons, List.length_nil] at hgives ⊢
  rwa [show w.length + (w'.length + (x.length + 1) + (0 + 1) + 1) = w.length + 1 + (w'.length + (x.length + 1) + 1) by
    omega]

theorem complete_emptyObject {w' : List UInt8} (hw : Blanks w) (hw' : Blanks w') :
    Complete (.value (.object [])) (w ++ openBrace :: (w' ++ [closeBrace])) := by
  intro n s l h _ hn
  obtain ⟨n, rfl⟩ : ∃ m, n = m + 1 := ⟨n - 1, by omega⟩
  obtain ⟨hcut, hrest⟩ := rest_enclosed h
  rw [parseValue_object n hcut hw, parseObject_empty hrest hw', Scanner.advance_advance]
  refine Or.inl (congrArg (fun k => Outcome.ok (_, s.advance k)) ?_)
  simp only [List.length_append, List.length_cons, List.length_nil]
  omega

theorem complete_object {members : List (List UInt8 × Value)} (hw : Blanks w) (ht : Text Reads (.members members) r)
    (ih : Complete (.members members) r) :
    Complete (.value (.object members)) (w ++ openBrace :: (r ++ [closeBrace])) := by
  intro n s l h _ hn
  obtain ⟨n, rfl⟩ : ∃ m, n = m + 1 := ⟨n - 1, by omega⟩
  obtain ⟨hcut, hrest⟩ := rest_enclosed h
  have hshorter := enclosed_shorter h hn
  obtain ⟨w', x, rfl, hw'⟩ := text_members_head ht
  have hfirst : (s.advance (w.length + 1)).rest = w' ++ quote :: (x ++ closeBrace :: l) := by
    rw [hrest, List.append_assoc, List.cons_append]
  have hgives := ih n n [] [] _ l hrest hshorter hshorter
  rw [parseValue_object n hcut hw, parseObject_from hfirst hw' (by decide) (by decide)]
  rw [List.nil_append, List.nil_append, Scanner.advance_advance] at hgives
  rw [Value.json]
  simp only [List.length_append, List.length_cons, List.length_nil] at hgives ⊢
  rwa [show w.length + (w'.length + (x.length + 1) + (0 + 1) + 1) = w.length + 1 + (w'.length + (x.length + 1) + 1) by
    omega]

/-- One element, and what the array goes on with. -/
theorem element_gives {v : Value} {m n : ℕ} {acc : List JsonValue} {j : JsonValue} (ih : Complete (.value v) r)
    (h : s.rest = r ++ (w ++ b :: x)) (hw : Blanks w) (hdigit : isDigit b = false)
    (hm : s.rest.length < m)
    (hlen : (b :: x).length < 4 → l.length < 4)
    (hnext : ∀ s1 : Scanner, s1 = s.advance r.length → s1.rest = w ++ b :: x →
      Gives (arrayNext (parseValue m) n (acc ++ [v.json]) s1) j s' (l.length < 4)) :
    Gives (arrayFrom (parseValue m) (n + 1) acc s) j s' (l.length < 4) := by
  have hne : s.rest ≠ [] := by
    rw [h]
    simp
  rw [arrayFrom_pass hne]
  refine Gives.bind (ih m s _ h (ends_spaces hw hdigit v) hm) (fun hshort => hlen ?_)
    (hnext _ rfl (Scanner.rest_advance h))
  rw [List.length_append] at hshort
  omega

theorem complete_element {v : Value} (hw : Blanks w) (ih : Complete (.value v) r) :
    Complete (.elements [v]) (r ++ w) := by
  intro m n acc s l h hm hn
  obtain ⟨n, rfl⟩ : ∃ k, n = k + 1 := ⟨n - 1, by omega⟩
  rw [List.append_assoc] at h
  refine element_gives ih h hw (by decide) hm (fun hshort => ?_) fun s1 hs1 hrest => ?_
  · rw [List.length_cons] at hshort
    omega
  · rw [arrayNext_other hrest hw (by decide) (by decide), if_pos rfl, hs1, Scanner.advance_advance,
      List.length_append, Nat.add_assoc]
    exact Or.inl rfl

theorem complete_elements {v : Value} {values : List Value} {r' : List UInt8} (hw : Blanks w)
    (ihv : Complete (.value v) r) (ih : Complete (.elements values) r') :
    Complete (.elements (v :: values)) (r ++ (w ++ comma :: r')) := by
  intro m n acc s l h hm hn
  obtain ⟨n, rfl⟩ : ∃ k, n = k + 1 := ⟨n - 1, by omega⟩
  have hcut : s.rest = r ++ (w ++ comma :: (r' ++ closeBracket :: l)) := by
    rw [h]
    simp only [List.append_assoc, List.cons_append]
  refine element_gives ihv hcut hw (by decide) hm (fun hshort => ?_) fun s1 hs1 hrest => ?_
  · simp only [List.length_cons, List.length_append] at hshort
    omega
  · have hcomma : s1.rest = (w ++ [comma]) ++ (r' ++ closeBracket :: l) := by
      rw [hrest]
      simp only [List.append_assoc, List.cons_append, List.nil_append]
    have hrest' := Scanner.rest_advance hcomma
    rw [List.length_append, List.length_singleton] at hrest'
    rw [hcut] at hm hn
    have hgives := ih m n (acc ++ [v.json]) _ l hrest'
      (by rw [hrest']; simp only [List.length_append, List.length_cons] at hm ⊢; omega)
      (by rw [hrest']; simp only [List.length_append, List.length_cons] at hn ⊢; omega)
    rw [arrayNext_comma hrest hw]
    rw [hs1, Scanner.advance_advance, Scanner.advance_advance, List.append_assoc] at hgives
    rw [hs1, Scanner.advance_advance]
    simp only [List.length_append, List.length_cons, List.map_cons, List.singleton_append] at hgives ⊢
    rwa [show r.length + (w.length + 1) + (r'.length + 1) = r.length + (w.length + (r'.length + 1)) + 1 by omega]
      at hgives

/-- One member, and what the object goes on with. -/
theorem member_gives {key : List UInt8} {v : Value} {m n : ℕ} {keys : List (List UInt8)} {acc : List JsonValue}
    {j : JsonValue} (hk : KeyText key k) (ih : Complete (.value v) r) (h : s.rest = k ++ (r ++ (w ++ b :: x)))
    (hw : Blanks w) (hdigit : isDigit b = false) (hm : s.rest.length < m)
    (hlen : (b :: x).length < 4 → l.length < 4)
    (hnext : ∀ s1 : Scanner, s1 = s.advance (k.length + r.length) → s1.rest = w ++ b :: x →
      Gives (objectNext (parseValue m) n (keys ++ [key]) (acc ++ [v.json]) s1) j s' (l.length < 4)) :
    Gives (objectFrom (parseValue m) (n + 1) keys acc s) j s' (l.length < 4) := by
  have hne : s.rest ≠ [] := by
    rw [h]
    simp
  have hrest : (s.advance k.length).rest = r ++ (w ++ b :: x) := Scanner.rest_advance h
  have hshorter : (s.advance k.length).rest.length < m := by
    rw [hrest]
    rw [h, List.length_append] at hm
    omega
  rw [objectFrom_pass hne, parseKey_eq h hk, bind_ok]
  refine Gives.bind (ih m _ _ hrest (ends_spaces hw hdigit v) hshorter) (fun hshort => hlen ?_)
    (hnext _ (Scanner.advance_advance ..) (Scanner.rest_advance hrest))
  rw [List.length_append] at hshort
  omega

theorem complete_member {key : List UInt8} {v : Value} (hk : KeyText key k) (hw : Blanks w)
    (ih : Complete (.value v) r) : Complete (.members [(key, v)]) (k ++ (r ++ w)) := by
  intro m n keys acc s l h hm hn
  obtain ⟨n, rfl⟩ : ∃ k, n = k + 1 := ⟨n - 1, by omega⟩
  rw [List.append_assoc, List.append_assoc] at h
  refine member_gives hk ih h hw (by decide) hm (fun hshort => ?_) fun s1 hs1 hrest => ?_
  · rw [List.length_cons] at hshort
    omega
  · rw [objectNext_other hrest hw (by decide) (by decide), if_pos rfl, hs1, Scanner.advance_advance,
      List.length_append, List.length_append, ← Nat.add_assoc, ← Nat.add_assoc]
    exact Or.inl rfl

theorem complete_members {key : List UInt8} {v : Value} {members : List (List UInt8 × Value)} {r' : List UInt8}
    (hk : KeyText key k) (hw : Blanks w) (ihv : Complete (.value v) r) (ih : Complete (.members members) r') :
    Complete (.members ((key, v) :: members)) (k ++ (r ++ (w ++ comma :: r'))) := by
  intro m n keys acc s l h hm hn
  obtain ⟨n, rfl⟩ : ∃ k, n = k + 1 := ⟨n - 1, by omega⟩
  have hcut : s.rest = k ++ (r ++ (w ++ comma :: (r' ++ closeBrace :: l))) := by
    rw [h]
    simp only [List.append_assoc, List.cons_append]
  refine member_gives hk ihv hcut hw (by decide) hm (fun hshort => ?_) fun s1 hs1 hrest => ?_
  · simp only [List.length_cons, List.length_append] at hshort
    omega
  · have hcomma : s1.rest = (w ++ [comma]) ++ (r' ++ closeBrace :: l) := by
      rw [hrest]
      simp only [List.append_assoc, List.cons_append, List.nil_append]
    have hrest' := Scanner.rest_advance hcomma
    rw [List.length_append, List.length_singleton] at hrest'
    rw [hcut] at hm hn
    have hgives := ih m n (keys ++ [key]) (acc ++ [v.json]) _ l hrest'
      (by rw [hrest']; simp only [List.length_append, List.length_cons] at hm ⊢; omega)
      (by rw [hrest']; simp only [List.length_append, List.length_cons] at hn ⊢; omega)
    rw [objectNext_comma hrest hw]
    rw [hs1, Scanner.advance_advance, Scanner.advance_advance, List.append_assoc, List.append_assoc] at hgives
    rw [hs1, Scanner.advance_advance]
    simp only [List.length_append, List.length_cons, List.map_cons, List.singleton_append] at hgives ⊢
    rwa [show k.length + r.length + (w.length + 1) + (r'.length + 1) =
      k.length + (r.length + (w.length + (r'.length + 1))) + 1 by omega] at hgives

/-- **Every text is read to its end**, or the program is stopped because fewer
than four bytes follow it. -/
theorem text_complete {p : Part} (h : Text Reads p r) : Complete p r := by
  induction h with
  | null hw => exact complete_null hw
  | true hw => exact complete_true hw
  | false hw => exact complete_false hw
  | number hw hd => exact complete_number hw hd
  | string hw hs => exact complete_string hw hs
  | emptyArray hw hw' => exact complete_emptyArray hw hw'
  | array hw ht ih => exact complete_array hw ht ih
  | emptyObject hw hw' => exact complete_emptyObject hw hw'
  | object hw ht ih => exact complete_object hw ht ih
  | element _ hw ih => exact complete_element hw ih
  | elements _ hw _ ihv ih => exact complete_elements hw ihv ih
  | member hk _ hw ih => exact complete_member hk hw ih
  | members hk _ hw _ ihv ih => exact complete_members hk hw ihv ih

/-- Texts with fewer numerals. -/
theorem Text.mono {N M : ℤ → List UInt8 → Prop} (hNM : ∀ n d, N n d → M n d) {p : Part} (h : Text N p r) :
    Text M p r := by
  induction h with
  | null hw => exact .null hw
  | true hw => exact .true hw
  | false hw => exact .false hw
  | number hw hd => exact .number hw (hNM _ _ hd)
  | string hw hs => exact .string hw hs
  | emptyArray hw hw' => exact .emptyArray hw hw'
  | array hw _ ih => exact .array hw ih
  | emptyObject hw hw' => exact .emptyObject hw hw'
  | object hw _ ih => exact .object hw ih
  | element _ hw ih => exact .element ih hw
  | elements _ hw _ ihv ih => exact .elements ihv hw ih
  | member hk _ hw ih => exact .member hk ih hw
  | members hk _ hw _ ihv ih => exact .members hk ihv hw ih

theorem reads_of_small {n : ℤ} (h : DenotesSmall n d) : Reads n d := by
  obtain ⟨⟨hd, rfl⟩, hsmall⟩ := h
  exact ⟨hd, (toInt_eq (by omega) (by omega)).symm⟩

/-- **The parser inverts rendering.** A rendering of a value, with integers of
absolute value below 2^31, is read to its end wherever it stands in a buffer, if
at least five bytes follow it and the first is not a digit. -/
theorem parseJsonValue_rendering {v : Value} (h : Text DenotesSmall (.value v) r) (before : List UInt8)
    (hlen : 5 ≤ l.length) (hdigit : NoDigit l) :
    parseJsonValue ⟨before ++ r ++ l, before.length⟩ =
      .ok (v.json, ⟨before ++ r ++ l, before.length + r.length⟩) := by
  have hrest : (⟨before ++ r ++ l, before.length⟩ : Scanner).rest = r ++ l := by
    rw [Scanner.rest, List.append_assoc, List.drop_left]
  have hends : Ends v l := by
    cases v with
    | number n => exact hdigit
    | _ => trivial
  rcases text_complete (h.mono fun _ _ => reads_of_small) _ _ l hrest hends (Nat.lt_succ_self _) with
    hok | ⟨-, hshort⟩
  · exact hok
  · omega

/-- `{"a": [-1, null]}`. -/
def sampleText : List UInt8 :=
  [openBrace, quote, 0x61, quote, colon, 0x20, openBracket, minus, 0x31, comma, 0x20, 0x6e, 0x75, 0x6c, 0x6c,
    closeBracket, closeBrace]

def sampleValue : Value := .object [([0x61], .array [.number (-1), .null])]

theorem sampleText_renders : Text DenotesSmall (.value sampleValue) sampleText := by
  have hone : Text DenotesSmall (.value (.number (-1))) [minus, 0x31] :=
    .number (w := []) spaces_nil ⟨⟨⟨by decide, List.forall_mem_singleton.mpr (by decide)⟩, by decide⟩, by decide⟩
  have hnull : Text DenotesSmall (.value .null) ([0x20] ++ nullText) := .null (spaces_one (by decide))
  have helements := Text.elements (w := []) hone spaces_nil (.element (w := []) hnull spaces_nil)
  have hkey : KeyText [0x61] [quote, 0x61, quote, colon] := ⟨[], [], spaces_nil, spaces_nil, by decide, rfl⟩
  have harray := Text.array (w := [0x20]) (spaces_one (by decide)) helements
  exact .object (w := []) spaces_nil (.member (w := []) hkey harray spaces_nil)

theorem parseJsonValue_sampleText :
    parseJsonValue ⟨[0x20] ++ sampleText ++ [0x20, 0x20, 0x20, 0x20, 0x20], 1⟩ =
      .ok (sampleValue.json, ⟨[0x20] ++ sampleText ++ [0x20, 0x20, 0x20, 0x20, 0x20], 1 + sampleText.length⟩) :=
  parseJsonValue_rendering sampleText_renders [0x20] (by decide) (noDigit_cons (by decide))

/-! ### Texts that break off -/

/-- What it is to stop the program. -/
def Stops : Place → List UInt8 → Prop
  | .value, x => ∀ n s, s.rest = x → x.length < n → parseValue n s = .abort
  | .elements, x => ∀ m n acc s, s.rest = x → x.length < m → x.length < n → arrayFrom (parseValue m) n acc s = .abort
  | .members, x => ∀ m n keys acc s, s.rest = x → x.length < m → x.length < n →
      objectFrom (parseValue m) n keys acc s = .abort

theorem Gives.abort {o : Outcome (JsonValue × Scanner)} {j : JsonValue} {B : Prop}
    {f : JsonValue × Scanner → Outcome (JsonValue × Scanner)} (h : Gives o j s B) (hf : f (j, s) = .abort) :
    o.bind f = .abort := by
  rcases h with rfl | ⟨rfl, -⟩
  · exact hf
  · rfl

theorem ends_only_spaces (hw : Blanks w) (v : Value) : Ends v w := by
  have hdigit : NoDigit w := fun b hb => not_digit_of_space (hw b (List.mem_of_mem_head? hb))
  cases v with
  | number n => exact hdigit
  | _ => trivial

theorem text_value_ne_nil {v : Value} (h : Text Reads (.value v) r) : r ≠ [] := by
  obtain ⟨w, b, x, rfl, -⟩ := text_value_head h
  simp

theorem keyText_ne_nil {key : List UInt8} (h : KeyText key k) : k ≠ [] := by
  obtain ⟨w, x, rfl, -⟩ := keyText_head h
  simp

theorem breaksOff_members_head (h : BreaksOff .members x) : ∃ w x', x = w ++ quote :: x' ∧ Blanks w := by
  cases h with
  | member hk _ =>
    obtain ⟨w, k', rfl, hw⟩ := keyText_head hk
    exact ⟨w, _, by rw [List.append_assoc, List.cons_append], hw⟩
  | members hk _ _ _ =>
    obtain ⟨w, k', rfl, hw⟩ := keyText_head hk
    exact ⟨w, _, by rw [List.append_assoc, List.cons_append], hw⟩

/-- What follows an opening token. -/
theorem rest_open (h : s.rest = w ++ b :: x) : (s.advance (w.length + 1)).rest = x := by
  have hcut : s.rest = (w ++ [b]) ++ x := by
    rw [h, List.append_assoc]
    rfl
  have hrest := Scanner.rest_advance hcut
  rwa [List.length_append, List.length_singleton] at hrest

theorem stops_array {w' : List UInt8} (hw : Blanks w) (hw' : Blanks w') (hx : NoSpace x)
    (hclose : x.head? ≠ some closeBracket) (ih : Stops .elements (w' ++ x)) :
    Stops .value (w ++ openBracket :: (w' ++ x)) := by
  intro n s h hn
  obtain ⟨n, rfl⟩ : ∃ m, n = m + 1 := ⟨n - 1, by omega⟩
  rw [List.length_append, List.length_cons] at hn
  have hrest := rest_open h
  rw [parseValue_array n h hw]
  cases x with
  | nil => exact parseArray_ended (by rw [hrest, List.append_nil]; exact hw')
  | cons b x =>
    rw [parseArray_from hrest hw' (hx b rfl) fun heq => hclose (congrArg some heq)]
    exact ih n n [] _ hrest (by omega) (by omega)

theorem stops_object (hw : Blanks w) (hx : BreaksOff .members x) (ih : Stops .members x) :
    Stops .value (w ++ openBrace :: x) := by
  intro n s h hn
  obtain ⟨n, rfl⟩ : ∃ m, n = m + 1 := ⟨n - 1, by omega⟩
  rw [List.length_append, List.length_cons] at hn
  obtain ⟨w', x', rfl, hw'⟩ := breaksOff_members_head hx
  have hrest := rest_open h
  rw [parseValue_object n h hw, parseObject_from hrest hw' (by decide) (by decide)]
  exact ih n n [] [] _ hrest (by omega) (by omega)

theorem stops_element (ih : Stops .value x) : Stops .elements x := by
  intro m n acc s h hm hn
  obtain ⟨n, rfl⟩ : ∃ k, n = k + 1 := ⟨n - 1, by omega⟩
  by_cases hnil : s.rest = []
  · exact arrayFrom_ended hnil
  · rw [arrayFrom_pass hnil, ih m s h hm, bind_abort]

theorem stops_afterElement {v : Value} (ht : Text Reads (.value v) r) (hw : Blanks w) : Stops .elements (r ++ w) := by
  intro m n acc s h hm hn
  obtain ⟨n, rfl⟩ : ∃ k, n = k + 1 := ⟨n - 1, by omega⟩
  have hne : s.rest ≠ [] := by
    rw [h]
    exact fun hnil => text_value_ne_nil ht (List.append_eq_nil_iff.mp hnil).1
  rw [arrayFrom_pass hne]
  refine Gives.abort (text_complete ht m s w h (ends_only_spaces hw v) (h ▸ hm)) ?_
  exact arrayNext_ended (by rw [Scanner.rest_advance h]; exact hw)

theorem stops_elements {v : Value} (ht : Text Reads (.value v) r) (hw : Blanks w) (ih : Stops .elements x) :
    Stops .elements (r ++ (w ++ comma :: x)) := by
  intro m n acc s h hm hn
  obtain ⟨n, rfl⟩ : ∃ k, n = k + 1 := ⟨n - 1, by omega⟩
  have hne : s.rest ≠ [] := by
    rw [h]
    simp
  have hrest := Scanner.rest_advance h
  simp only [List.length_append, List.length_cons] at hn
  rw [arrayFrom_pass hne]
  refine Gives.abort (text_complete ht m s _ h (ends_spaces hw (by decide) v) (h ▸ hm)) ?_
  simp only [List.length_append, List.length_cons] at hm
  rw [arrayNext_comma hrest hw]
  exact ih m n _ _ (rest_open hrest) (by omega) (by omega)

theorem stops_member {key : List UInt8} (hk : KeyText key k) (ih : Stops .value x) : Stops .members (k ++ x) := by
  intro m n keys acc s h hm hn
  obtain ⟨n, rfl⟩ : ∃ k, n = k + 1 := ⟨n - 1, by omega⟩
  have hne : s.rest ≠ [] := by
    rw [h]
    exact fun hnil => keyText_ne_nil hk (List.append_eq_nil_iff.mp hnil).1
  rw [List.length_append] at hm
  rw [objectFrom_pass hne, parseKey_eq h hk, bind_ok, ih m _ (Scanner.rest_advance h) (by omega), bind_abort]

theorem stops_members {key : List UInt8} {v : Value} (hk : KeyText key k) (ht : Text Reads (.value v) r)
    (hw : Blanks w) (ih : Stops .members x) : Stops .members (k ++ (r ++ (w ++ comma :: x))) := by
  intro m n keys acc s h hm hn
  obtain ⟨n, rfl⟩ : ∃ k, n = k + 1 := ⟨n - 1, by omega⟩
  have hne : s.rest ≠ [] := by
    rw [h]
    simp
  have hvalue := Scanner.rest_advance h
  have hrest := Scanner.rest_advance hvalue
  simp only [List.length_append, List.length_cons] at hn hm
  have hshorter : (s.advance k.length).rest.length < m := by
    rw [hvalue]
    simp only [List.length_append, List.length_cons]
    omega
  rw [objectFrom_pass hne, parseKey_eq h hk, bind_ok]
  refine Gives.abort (text_complete ht m _ _ hvalue (ends_spaces hw (by decide) v) hshorter) ?_
  rw [objectNext_comma hrest hw]
  exact ih m n _ _ _ (rest_open hrest) (by omega) (by omega)

/-- **A text that breaks off stops the program.** -/
theorem breaksOff_aborts {p : Place} (h : BreaksOff p x) : Stops p x := by
  induction h with
  | ended hw =>
    intro n s h hn
    obtain ⟨n, rfl⟩ : ∃ m, n = m + 1 := ⟨n - 1, by omega⟩
    exact parseValue_ended n (by rw [h]; exact hw)
  | scalar hw hb hbrace hbracket hlen htrue =>
    intro n s h hn
    obtain ⟨n, rfl⟩ : ∃ m, n = m + 1 := ⟨n - 1, by omega⟩
    rw [parseValue_scalar n h hw hb hbrace hbracket]
    exact parseScalar_short (Scanner.rest_advance h) (by simp) hlen htrue
  | opened hw hw' =>
    intro n s h hn
    obtain ⟨n, rfl⟩ : ∃ m, n = m + 1 := ⟨n - 1, by omega⟩
    rw [parseValue_object n h hw]
    exact parseObject_ended (by rw [rest_open h]; exact hw')
  | array hw hw' hx hclose _ ih => exact stops_array hw hw' hx hclose ih
  | object hw hx ih => exact stops_object hw hx ih
  | element _ ih => exact stops_element ih
  | afterElement ht hw => exact stops_afterElement ht hw
  | elements ht hw _ ih => exact stops_elements ht hw ih
  | member hk _ ih => exact stops_member hk ih
  | members hk ht hw _ ih => exact stops_members hk ht hw ih

end Json
end WingOS
