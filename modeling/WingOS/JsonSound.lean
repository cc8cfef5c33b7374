/-
# What the JSON parser accepts, and where it stops

Whatever `parse_json_value` returns is the value of a text at the beginning of
the buffer, and where it stops the program the text breaks off
(`parseValue_yields`). So `Json::parse` returns on a buffer exactly if the buffer
does not break off (`parse_returns_iff`), and what it accepts is a whole document
exactly if no text at the beginning of the buffer is followed by anything but
white space, or has a numeral that does not fit (`parse_whole_iff`).

Key definitions: `Yields`, `Returns`, `WholeDocument`, `OnlyWhole`.
Key theorems: `parseValue_yields`, `parse_returns_iff`, `parse_whole_iff`.
-/
import WingOS.JsonReads

namespace WingOS
namespace Json

open Scan

variable {s : Scanner} {b : UInt8} {k l r w x : List UInt8}

/-- A value is returned for what is read as `Q` says, and the program is only
stopped where `B` allows it. -/
def Yields {α : Type} (s : Scanner) (o : Outcome (α × Scanner)) (Q : α → List UInt8 → List UInt8 → Prop) (B : Prop) :
    Prop :=
  match o with
  | .ok (a, s') => ∃ r l, s.rest = r ++ l ∧ s' = s.advance r.length ∧ Q a r l
  | .error _ => True
  | .abort => B
  | .spin => False

section Rules

variable {α β : Type} {o : Outcome (α × Scanner)} {Q Q' : α → List UInt8 → List UInt8 → Prop} {B B' : Prop}

theorem yields_ok {a : α} (h : s.rest = r ++ l) (hQ : Q a r l) : Yields s (.ok (a, s.advance r.length)) Q B :=
  ⟨r, l, h, rfl, hQ⟩

theorem Yields.bind {f : α × Scanner → Outcome (β × Scanner)} {R : β → List UInt8 → List UInt8 → Prop}
    (h : Yields s o Q B) (hB : B → B')
    (hf : ∀ a r l, s.rest = r ++ l → Q a r l → Yields s (f (a, s.advance r.length)) R B') :
    Yields s (o.bind f) R B' := by
  cases o with
  | ok p =>
    obtain ⟨a, s'⟩ := p
    obtain ⟨r, l, hrest, rfl, hQ⟩ := h
    exact hf a r l hrest hQ
  | error e => trivial
  | abort => exact hB h
  | spin => exact h.elim

/-- What is read behind the text `r`. -/
theorem Yields.shift (hrest : s.rest = r ++ l) (h : Yields (s.advance r.length) o Q B)
    (hQ : ∀ a r' l', l = r' ++ l' → Q a r' l' → Q' a (r ++ r') l') (hB : B → B') : Yields s o Q' B' := by
  cases o with
  | ok p =>
    obtain ⟨a, s'⟩ := p
    obtain ⟨r', l', hrest', rfl, hq⟩ := h
    have hl : l = r' ++ l' := (Scanner.rest_advance hrest).symm.trans hrest'
    refine ⟨r ++ r', l', by rw [hrest, hl, List.append_assoc], ?_, hQ a r' l' hl hq⟩
    rw [Scanner.advance_advance, List.length_append]
  | error e => trivial
  | abort => exact hB h
  | spin => exact h.elim

end Rules

/-- What is read as a value. -/
def IsValue (j : JsonValue) (r l : List UInt8) : Prop := ∃ v, v.json = j ∧ Text Reads (.value v) r ∧ Ends v l

/-! ### Scalars -/

theorem parseStringOrInt_yields (h : s.rest = b :: x) (hb : isSpace b = false) :
    Yields s (parseStringOrInt s) IsValue False := by
  by_cases hquote : b = quote
  · subst hquote
    by_cases hopen : quote ∈ x
    · obtain ⟨k, l, rfl, hk⟩ := List.eq_append_cons_of_mem hopen
      have hcut : s.rest = (quote :: (k ++ [quote])) ++ l := by
        rw [h]
        simp only [List.append_assoc, List.cons_append, List.nil_append]
      rw [parseString_eq h hk, show k.length + 2 = (quote :: (k ++ [quote])).length by simp]
      exact yields_ok hcut ⟨.string k, rfl, .string spaces_nil hk, trivial⟩
    · obtain ⟨e, herror⟩ := parseString_open h hopen
      rw [herror]
      trivial
  · rw [parseStringOrInt_int h hb hquote]
    rcases parseInt_cases s with ⟨d, l, hrest, hd, hl⟩ | ⟨e, herror⟩
    · rw [parseInt_eq hrest hd hl, bind_ok]
      exact yields_ok hrest ⟨.number (toInt (numeralValue d)), rfl, .number (w := []) spaces_nil ⟨hd, rfl⟩, hl⟩
    · rw [herror]
      trivial

theorem parseScalar_yields (h : s.rest = b :: x) (hb : isSpace b = false) (hbrace : b ≠ openBrace)
    (hbracket : b ≠ openBracket) : Yields s (parseScalar s) IsValue (BreaksOff .value s.rest) := by
  by_cases htrue : trueText <+: b :: x
  · obtain ⟨l, hl⟩ := htrue
    rw [parseScalar_true (h.trans hl.symm)]
    exact yields_ok (h.trans hl.symm) ⟨.boolean true, rfl, .true (w := []) spaces_nil, trivial⟩
  · by_cases hlen : falseText.length ≤ (b :: x).length
    · rw [parseScalar_eq h hlen htrue]
      split_ifs with hfalse hnull
      · obtain ⟨l, hl⟩ := hfalse
        exact yields_ok (h.trans hl.symm) ⟨.boolean false, rfl, .false (w := []) spaces_nil, trivial⟩
      · obtain ⟨l, hl⟩ := hnull
        exact yields_ok (h.trans hl.symm) ⟨.null, rfl, .null (w := []) spaces_nil, trivial⟩
      · have hyields := parseStringOrInt_yields h hb
        exact Yields.shift (r := []) (l := b :: x) h hyields (fun _ _ _ _ hq => hq) False.elim
    · rw [parseScalar_short h (by simp) (Nat.lt_of_not_le hlen) htrue, h]
      exact .scalar (w := []) spaces_nil hb hbrace hbracket (Nat.lt_of_not_le hlen) htrue

/-! ### White space before a value -/

theorem spaces_append {w' : List UInt8} (hw : Blanks w) (hw' : Blanks w') : Blanks (w ++ w') := fun b hb =>
  (List.mem_append.mp hb).elim (hw b) (hw' b)

theorem text_spaces {N : ℤ → List UInt8 → Prop} {v : Value} (hw : Blanks w) (h : Text N (.value v) r) :
    Text N (.value v) (w ++ r) := by
  cases h with
  | null hw' => exact List.append_assoc w _ _ ▸ .null (spaces_append hw hw')
  | true hw' => exact List.append_assoc w _ _ ▸ .true (spaces_append hw hw')
  | false hw' => exact List.append_assoc w _ _ ▸ .false (spaces_append hw hw')
  | number hw' hd => exact List.append_assoc w _ _ ▸ .number (spaces_append hw hw') hd
  | string hw' hs => exact List.append_assoc w _ _ ▸ .string (spaces_append hw hw') hs
  | emptyArray hw' hw'' => exact List.append_assoc w _ _ ▸ .emptyArray (spaces_append hw hw') hw''
  | array hw' ht => exact List.append_assoc w _ _ ▸ .array (spaces_append hw hw') ht
  | emptyObject hw' hw'' => exact List.append_assoc w _ _ ▸ .emptyObject (spaces_append hw hw') hw''
  | object hw' ht => exact List.append_assoc w _ _ ▸ .object (spaces_append hw hw') ht

theorem breaksOff_spaces (hw : Blanks w) (h : BreaksOff .value x) : BreaksOff .value (w ++ x) := by
  cases h with
  | ended hw' => exact .ended (spaces_append hw hw')
  | scalar hw' hb hbrace hbracket hlen htrue =>
    exact List.append_assoc w _ _ ▸ .scalar (spaces_append hw hw') hb hbrace hbracket hlen htrue
  | opened hw' hw'' => exact List.append_assoc w _ _ ▸ .opened (spaces_append hw hw') hw''
  | array hw' hw'' hx hclose hx' =>
    exact List.append_assoc w _ _ ▸ .array (spaces_append hw hw') hw'' hx hclose hx'
  | object hw' hx => exact List.append_assoc w _ _ ▸ .object (spaces_append hw hw') hx

/-! ### Arrays and objects -/

/-- What is read as the rest of an array. -/
def IsArrayRest (acc : List JsonValue) (j : JsonValue) (r : List UInt8) : Prop :=
  ∃ values r', j = { type := .array, values := acc ++ values.map Value.json } ∧ r = r' ++ [closeBracket] ∧
    Text Reads (.elements values) r'

def IsObjectRest (keys : List (List UInt8)) (acc : List JsonValue) (j : JsonValue) (r : List UInt8) : Prop :=
  ∃ members r',
    j = { type := .object, keys := keys ++ members.map Prod.fst, values := acc ++ members.map fun m => m.2.json } ∧
      r = r' ++ [closeBrace] ∧ Text Reads (.members members) r'

/-- What the parser of the elements and members does. -/
def ValueYields (m : ℕ) : Prop := ∀ s : Scanner, s.rest.length < m →
  Yields s (parseValue m s) IsValue (BreaksOff .value s.rest)

/-- The scanner behind a token `b` that follows `k` and white space. -/
theorem advance_token {s : Scanner} {k w x : List UInt8} {b : UInt8} (h : s.rest = k ++ (w ++ b :: x)) :
    s.rest = (k ++ w ++ [b]) ++ x ∧
      (s.advance k.length).advance (w.length + 1) = s.advance (k ++ w ++ [b]).length ∧ x.length < s.rest.length := by
  refine ⟨?_, ?_, ?_⟩
  · rw [h, List.append_assoc, List.append_assoc, List.singleton_append]
  · rw [Scanner.advance_advance, List.length_append, List.length_append, List.length_singleton, Nat.add_assoc]
  · rw [h]
    simp only [List.length_append, List.length_cons]
    omega

theorem arrayFrom_yields {m : ℕ} (hvalue : ValueYields m) (n : ℕ) : ∀ (acc : List JsonValue) (s : Scanner),
    s.rest.length < m → s.rest.length < n →
    Yields s (arrayFrom (parseValue m) n acc s) (fun j r _ => IsArrayRest acc j r)
      (BreaksOff .elements s.rest) := by
  induction n with
  | zero => exact fun _ _ _ hn => absurd hn (Nat.not_lt_zero _)
  | succ n ih =>
    intro acc s hm hn
    by_cases hnil : s.rest = []
    · rw [arrayFrom_ended hnil, hnil]
      exact .element (.ended spaces_nil)
    rw [arrayFrom_pass hnil]
    refine (hvalue s hm).bind .element ?_
    rintro j r l hrest ⟨v, rfl, ht, hends⟩
    have hl := Scanner.rest_advance hrest
    rcases spaces_cases l with hw | ⟨w, b, x, rfl, hw, hb⟩
    · rw [arrayNext_ended (by rw [hl]; exact hw), hrest]
      exact .afterElement ht hw
    by_cases hcomma : b = comma
    · subst hcomma
      have hx := rest_open hl
      obtain ⟨hcut, hadvance, hlength⟩ := advance_token hrest
      rw [arrayNext_comma hl hw]
      have hnext := ih (acc ++ [v.json]) ((s.advance r.length).advance (w.length + 1)) (by rw [hx]; omega)
        (by rw [hx]; omega)
      rw [hadvance] at hnext ⊢
      refine hnext.shift hcut ?_ fun hbreaks => ?_
      · rintro j r1 l1 - ⟨values, r', rfl, rfl, hvalues⟩
        refine ⟨v :: values, r ++ (w ++ comma :: r'), ?_, ?_, .elements ht hw hvalues⟩
        · rw [List.map_cons, List.append_assoc, List.singleton_append]
        · simp only [List.append_assoc, List.cons_append, List.nil_append]
      · rw [Scanner.rest_advance hcut] at hbreaks
        rw [hrest]
        exact .elements ht hw hbreaks
    · rw [arrayNext_other hl hw hb hcomma]
      split_ifs with hclose
      · subst hclose
        obtain ⟨hcut, hadvance, -⟩ := advance_token hrest
        rw [hadvance]
        exact yields_ok hcut ⟨[v], r ++ w, rfl, rfl, .element ht hw⟩
      · trivial

theorem objectFrom_yields {m : ℕ} (hvalue : ValueYields m) (n : ℕ) :
    ∀ (keys : List (List UInt8)) (acc : List JsonValue) (s : Scanner), s.rest.length < m → s.rest.length < n →
    Yields s (objectFrom (parseValue m) n keys acc s) (fun j r _ => IsObjectRest keys acc j r)
      (BreaksOff .members s.rest) := by
  induction n with
  | zero => exact fun _ _ _ _ hn => absurd hn (Nat.not_lt_zero _)
  | succ n ih =>
    intro keys acc s hm hn
    by_cases hnil : s.rest = []
    · obtain ⟨e, herror⟩ : ∃ e, objectFrom (parseValue m) (n + 1) keys acc s = .error e := objectFrom_ended hnil
      rw [herror]
      trivial
    rw [objectFrom_pass hnil]
    rcases parseKey_cases s with ⟨key, k, l0, hkrest, hk⟩ | ⟨e, herror⟩
    swap
    · rw [herror]
      trivial
    rw [parseKey_eq hkrest hk, bind_ok]
    have hl0 := Scanner.rest_advance hkrest
    have hm0 : (s.advance k.length).rest.length < m := by
      rw [hl0]
      rw [hkrest, List.length_append] at hm
      omega
    have hmember : Yields s (parseValue m (s.advance k.length)) (fun j r l => ∃ r', r = k ++ r' ∧ IsValue j r' l)
        (BreaksOff .members s.rest) := by
      refine (hvalue _ hm0).shift hkrest (fun j r' l' _ hq => ⟨r', rfl, hq⟩) fun hbreaks => ?_
      rw [hl0] at hbreaks
      rw [hkrest]
      exact .member hk hbreaks
    refine hmember.bind id ?_
    rintro j r l hrest ⟨r, rfl, v, rfl, ht, hends⟩
    have hl := Scanner.rest_advance hrest
    rcases spaces_cases l with hw | ⟨w, b, x, rfl, hw, hb⟩
    · obtain ⟨e, herror⟩ : ∃ e, objectNext (parseValue m) n (keys ++ [key]) (acc ++ [v.json])
          (s.advance (k ++ r).length) = .error e := objectNext_ended (by rw [hl]; exact hw)
      rw [herror]
      trivial
    by_cases hcomma : b = comma
    · subst hcomma
      have hx := rest_open hl
      obtain ⟨hcut, hadvance, hlength⟩ := advance_token hrest
      rw [objectNext_comma hl hw]
      have hnext := ih (keys ++ [key]) (acc ++ [v.json]) ((s.advance (k ++ r).length).advance (w.length + 1))
        (by rw [hx]; omega) (by rw [hx]; omega)
      rw [hadvance] at hnext ⊢
      refine hnext.shift hcut ?_ fun hbreaks => ?_
      · rintro j r1 l1 - ⟨members, r', rfl, rfl, hmembers⟩
        refine ⟨(key, v) :: members, k ++ (r ++ (w ++ comma :: r')), ?_, ?_, .members hk ht hw hmembers⟩
        · simp only [List.map_cons, List.append_assoc, List.singleton_append]
        · simp only [List.append_assoc, List.cons_append, List.nil_append]
      · rw [Scanner.rest_advance hcut] at hbreaks
        rw [hrest, List.append_assoc]
        exact .members hk ht hw hbreaks
    · rw [objectNext_other hl hw hb hcomma]
      split_ifs with hclose
      · subst hclose
        obtain ⟨hcut, hadvance, -⟩ := advance_token hrest
        rw [List.append_assoc k r w] at hcut hadvance
        rw [hadvance]
        exact yields_ok hcut ⟨[(key, v)], k ++ (r ++ w), rfl, rfl, .member hk ht hw⟩
      · trivial

/-- An array or an object, after its opening token `c`. -/
def IsBody (c : UInt8) (j : JsonValue) (r : List UInt8) : Prop :=
  ∃ v, v.json = j ∧ Text Reads (.value v) (c :: r) ∧ ∀ l, Ends v l

theorem parseArray_yields {n : ℕ} (hvalue : ValueYields n) (hn : s.rest.length < n) :
    Yields s (parseArray (parseValue n) n s) (fun j r _ => IsBody openBracket j r)
      (BreaksOff .value (openBracket :: s.rest)) := by
  rcases spaces_cases s.rest with hw | ⟨w, b, x, h, hw, hb⟩
  · rw [parseArray_ended hw]
    have hbreaks := BreaksOff.array (w := []) (x := []) spaces_nil hw (fun b hb => absurd hb (by simp)) (by simp)
      (.element (.ended (by rw [List.append_nil]; exact hw)))
    rwa [List.append_nil] at hbreaks
  by_cases hclose : b = closeBracket
  · subst hclose
    have hcut : s.rest = (w ++ [closeBracket]) ++ x := by
      rw [h, List.append_assoc]
      rfl
    rw [parseArray_empty h hw, show w.length + 1 = (w ++ [closeBracket]).length by simp]
    exact yields_ok hcut ⟨.array [], rfl, .emptyArray (w := []) spaces_nil hw, fun _ => trivial⟩
  · rw [parseArray_from h hw hb hclose]
    refine (arrayFrom_yields hvalue n [] s hn hn).shift (r := []) rfl ?_ fun hbreaks => ?_
    · rintro j r l - ⟨values, r', rfl, rfl, hvalues⟩
      exact ⟨.array values, by rw [Value.json, List.nil_append], .array (w := []) spaces_nil hvalues, fun _ => trivial⟩
    · rw [h] at hbreaks ⊢
      exact .array (w := []) spaces_nil hw (noSpace_cons hb) (fun heq => hclose (Option.some.inj heq)) hbreaks

theorem parseObject_yields {n : ℕ} (hvalue : ValueYields n) (hn : s.rest.length < n) :
    Yields s (parseObject (parseValue n) n s) (fun j r _ => IsBody openBrace j r)
      (BreaksOff .value (openBrace :: s.rest)) := by
  rcases spaces_cases s.rest with hw | ⟨w, b, x, h, hw, hb⟩
  · rw [parseObject_ended hw]
    exact .opened (w := []) spaces_nil hw
  by_cases hclose : b = closeBrace
  · subst hclose
    have hcut : s.rest = (w ++ [closeBrace]) ++ x := by
      rw [h, List.append_assoc]
      rfl
    rw [parseObject_empty h hw, show w.length + 1 = (w ++ [closeBrace]).length by simp]
    exact yields_ok hcut ⟨.object [], rfl, .emptyObject (w := []) spaces_nil hw, fun _ => trivial⟩
  · rw [parseObject_from h hw hb hclose]
    refine (objectFrom_yields hvalue n [] [] s hn hn).shift (r := []) rfl ?_ fun hbreaks => ?_
    · rintro j r l - ⟨members, r', rfl, rfl, hmembers⟩
      exact ⟨.object members, by rw [Value.json, List.nil_append, List.nil_append],
        .object (w := []) spaces_nil hmembers, fun _ => trivial⟩
    · exact .object (w := []) spaces_nil hbreaks

/-- White space and an opening token before the rest of a value. -/
theorem body_yields {c : UInt8} {o : Outcome (JsonValue × Scanner)} (h : s.rest = w ++ c :: x) (hw : Blanks w)
    (hbody : Yields (s.advance (w.length + 1)) o (fun j r _ => IsBody c j r)
      (BreaksOff .value (c :: (s.advance (w.length + 1)).rest))) :
    Yields s o IsValue (BreaksOff .value s.rest) := by
  have hx := rest_open h
  have hcut : s.rest = (w ++ [c]) ++ x := by
    rw [h, List.append_assoc]
    rfl
  rw [show w.length + 1 = (w ++ [c]).length by simp] at hbody hx
  refine hbody.shift hcut ?_ fun hbreaks => ?_
  · rintro j r l - ⟨v, rfl, ht, hends⟩
    refine ⟨v, rfl, ?_, hends l⟩
    rw [List.append_assoc]
    exact text_spaces hw ht
  · rw [hx] at hbreaks
    rw [h]
    exact breaksOff_spaces hw hbreaks

/-- **What is returned is the value of a text** at the beginning, and where the
program is stopped the text breaks off. The bound is not reached. -/
theorem parseValue_yields (n : ℕ) : ValueYields n := by
  induction n with
  | zero => exact fun _ hn => absurd hn (Nat.not_lt_zero _)
  | succ n ih =>
    intro s hn
    rcases spaces_cases s.rest with hw | ⟨w, b, x, h, hw, hb⟩
    · rw [parseValue_ended n hw]
      exact .ended hw
    have hx := rest_open h
    have hlength : x.length < n := by
      rw [h] at hn
      simp only [List.length_append, List.length_cons] at hn
      omega
    by_cases hbrace : b = openBrace
    · subst hbrace
      rw [parseValue_object n h hw]
      exact body_yields h hw (parseObject_yields ih (by rw [hx]; exact hlength))
    by_cases hbracket : b = openBracket
    · subst hbracket
      rw [parseValue_array n h hw]
      exact body_yields h hw (parseArray_yields ih (by rw [hx]; exact hlength))
    · have hrest : (s.advance w.length).rest = b :: x := Scanner.rest_advance h
      rw [parseValue_scalar n h hw hb hbrace hbracket]
      refine (parseScalar_yields hrest hb hbrace hbracket).shift h ?_ fun hbreaks => ?_
      · rintro j r' l' - ⟨v, rfl, ht, hends⟩
        exact ⟨v, rfl, text_spaces hw ht, hends⟩
      · rw [hrest] at hbreaks
        rw [h]
        exact breaksOff_spaces hw hbreaks

/-! ### `Json::parse` -/

section Documents

variable {reader : List UInt8} {v : Value} {j : JsonValue}

/-- The program is not stopped. -/
def Returns {α : Type} (o : Outcome α) : Prop := (∃ a, o = .ok a) ∨ ∃ e, o = .error e

/-- The numerals of an `int`. -/
def Writes (n : ℤ) (d : List UInt8) : Prop := Denotes n d ∧ -2 ^ 31 ≤ n ∧ n < 2 ^ 31

/-- The buffer is a text of the value, and white space after it. -/
def WholeDocument (j : JsonValue) (reader : List UInt8) : Prop :=
  ∃ v r w, v.json = j ∧ reader = r ++ w ∧ Text Writes (.value v) r ∧ Blanks w

/-- Only white space follows a text at the beginning, and its numerals fit. -/
def OnlyWhole (reader : List UInt8) : Prop :=
  ∀ v r l, reader = r ++ l → Text Reads (.value v) r → Ends v l →
    Blanks l ∧ ∃ v', Text Writes (.value v') r

theorem reads_of_writes {n : ℤ} {d : List UInt8} (h : Writes n d) : Reads n d := by
  obtain ⟨⟨hd, rfl⟩, hlow, hhigh⟩ := h
  exact ⟨hd, (toInt_eq hlow hhigh).symm⟩

theorem parse_yields (reader : List UInt8) :
    Yields ⟨reader, 0⟩ (parseJsonValue ⟨reader, 0⟩) IsValue (BreaksOff .value reader) :=
  parseValue_yields _ _ (Nat.lt_succ_self _)

theorem parse_aborts (h : BreaksOff .value reader) : parse reader = .abort := by
  have hstops := breaksOff_aborts h (reader.length + 1) ⟨reader, 0⟩ rfl (Nat.lt_succ_self _)
  rw [parse, show parseJsonValue ⟨reader, 0⟩ = .abort from hstops]
  rfl

/-- A text at the beginning is what is parsed, if the buffer does not break off. -/
theorem parse_text (hbreaks : ¬BreaksOff .value reader) {l : List UInt8} (hreader : reader = r ++ l)
    (ht : Text Reads (.value v) r) (hends : Ends v l) :
    parseJsonValue ⟨reader, 0⟩ = .ok (v.json, ⟨reader, r.length⟩) := by
  rcases text_complete ht _ ⟨reader, 0⟩ l hreader hends (Nat.lt_succ_self _) with hok | ⟨habort, -⟩
  · rwa [Scanner.advance, Nat.zero_add] at hok
  · have hyields := parse_yields reader
    rw [parseJsonValue, show parseValue _ ⟨reader, 0⟩ = .abort from habort] at hyields
    exact absurd hyields hbreaks

/-- **`Json::parse` returns** a value or an error exactly on the buffers that do
not break off. -/
theorem parse_returns_iff (reader : List UInt8) : Returns (parse reader) ↔ ¬BreaksOff .value reader := by
  constructor
  · intro h hbreaks
    rw [parse_aborts hbreaks] at h
    rcases h with ⟨a, ha⟩ | ⟨e, he⟩
    · exact absurd ha (by simp)
    · exact absurd he (by simp)
  · intro hbreaks
    have hyields := parse_yields reader
    rw [parse]
    cases ho : parseJsonValue ⟨reader, 0⟩ with
    | ok p => exact Or.inl ⟨p.1, rfl⟩
    | error e => exact Or.inr ⟨e, rfl⟩
    | abort =>
      rw [ho] at hyields
      exact absurd hyields hbreaks
    | spin =>
      rw [ho] at hyields
      exact hyields.elim

/-- The empty buffer, and small whole documents, stop the program. -/
theorem parse_small_aborts : ¬Returns (parse []) ∧ ¬Returns (parse [0x31]) ∧
    ¬Returns (parse [openBracket, 0x31, closeBracket]) := by
  have hnot : ∀ o : Outcome JsonValue, o = .abort → ¬Returns o := by
    rintro _ rfl (⟨a, ha⟩ | ⟨e, he⟩)
    · exact absurd ha (by simp)
    · exact absurd he (by simp)
  exact ⟨hnot _ rfl, hnot _ rfl, hnot _ rfl⟩

/-- What a text that is accepted says of every text at the beginning. -/
theorem onlyWhole_of_accepts (hbreaks : ¬BreaksOff .value reader)
    (h : ∀ j, parse reader = .ok j → WholeDocument j reader) : OnlyWhole reader := by
  intro v r l hreader ht hends
  have hv := parse_text hbreaks hreader ht hends
  obtain ⟨v', r', w, hj, hreader', ht', hw⟩ := h v.json (by rw [parse, hv]; rfl)
  have hv' := parse_text hbreaks hreader' (ht'.mono fun _ _ => reads_of_writes) (ends_only_spaces hw v')
  rw [hv, Outcome.ok.injEq, Prod.mk.injEq, Scanner.mk.injEq] at hv'
  obtain ⟨rfl, rfl⟩ := List.append_inj (hreader.symm.trans hreader') hv'.2.2
  exact ⟨hw, v', ht'⟩

/-- **What is accepted is a whole document**, exactly if the buffer breaks off,
or only white space follows a text at its beginning and the numerals of the text
fit. -/
theorem parse_whole_iff (reader : List UInt8) :
    (∀ j, parse reader = .ok j → WholeDocument j reader) ↔ BreaksOff .value reader ∨ OnlyWhole reader := by
  constructor
  · intro h
    by_cases hbreaks : BreaksOff .value reader
    · exact Or.inl hbreaks
    · exact Or.inr (onlyWhole_of_accepts hbreaks h)
  · rintro (hbreaks | honly) j hj
    · rw [parse_aborts hbreaks] at hj
      exact absurd hj (by simp)
    · have hbreaks : ¬BreaksOff .value reader := fun hbreaks => by
        rw [parse_aborts hbreaks] at hj
        exact absurd hj (by simp)
      have hyields := parse_yields reader
      rw [parse] at hj
      cases ho : parseJsonValue ⟨reader, 0⟩ with
      | ok p =>
        rw [ho] at hj hyields
        obtain rfl : p.1 = j := Outcome.ok.inj hj
        obtain ⟨r, l, hreader, -, v, hv, ht, hends⟩ := hyields
        obtain ⟨hw, v', ht'⟩ := honly v r l hreader ht hends
        have htext := parse_text hbreaks hreader (ht'.mono fun _ _ => reads_of_writes) (ends_only_spaces hw v')
        exact ⟨v', r, l, congrArg Prod.fst (Outcome.ok.inj (htext.symm.trans ho)), hreader, ht', hw⟩
      | error e =>
        rw [ho] at hj
        exact absurd hj (by simp [Outcome.map])
      | abort =>
        rw [ho] at hj
        exact absurd hj (by simp [Outcome.map])
      | spin =>
        rw [ho] at hj
        exact absurd hj (by simp [Outcome.map])

/-- `1 xxxxx` is accepted, as the number 1. -/
def trailing : List UInt8 := [0x31, 0x20, 0x78, 0x78, 0x78, 0x78, 0x78]

theorem parse_trailing : ¬∀ j, parse trailing = .ok j → WholeDocument j trailing := by
  intro h
  have hok : parse trailing = .ok (Value.json (.number 1)) := by
    rw [Value.json]
    rfl
  have hbreaks : ¬BreaksOff .value trailing := fun hbreaks => by
    rw [parse_aborts hbreaks] at hok
    exact absurd hok (by simp)
  have htext : Text Reads (.value (.number 1)) [0x31] :=
    .number (w := []) spaces_nil ⟨⟨by decide, List.forall_mem_singleton.mpr (by decide)⟩, by decide⟩
  have hends : Ends (.number 1) [0x20, 0x78, 0x78, 0x78, 0x78, 0x78] := fun b hb => by
    rw [← Option.some.inj hb]
    decide
  have hspaces := (onlyWhole_of_accepts hbreaks h _ [0x31] _ rfl htext hends).1
  exact absurd (hspaces 0x78 (by decide)) (by decide)

end Documents

end Json
end WingOS
