/-
# The steps of the JSON parser

What each part of `parse_json_value` does to a buffer that is cut at its tokens:
the three ways a value can begin, the words, strings and integers, and one pass
of the loops over elements and members.

Key definitions: `arrayFrom`, `arrayNext`, `objectFrom`, `objectNext`.
Key theorems: `parseValue_object`, `parseValue_array`, `parseValue_scalar`,
`parseScalar_eq`, `parseKey_eq`, `arrayFrom_pass`, `objectFrom_pass`.
-/
import WingOS.Json

namespace WingOS
namespace Json

open Scan

variable {α β : Type} {s s' : Scanner} {a : α} {b c : UInt8} {k l r w x : List UInt8}

/-! ### Operations in sequence -/

theorem bind_eq (p : Parser α) (f : α → Parser β) (s : Scanner) : (p >>= f) s = (p s).bind fun r => f r.1 r.2 := rfl

theorem pure_eq (a : α) (s : Scanner) : (pure a : Parser α) s = .ok (a, s) := rfl

@[simp]
theorem bind_ok (a : α) (f : α → Outcome β) : (Outcome.ok a).bind f = f a := rfl

@[simp]
theorem bind_error (e : String) (f : α → Outcome β) : (Outcome.error e).bind f = .error e := rfl

@[simp]
theorem bind_abort (f : α → Outcome β) : (Outcome.abort : Outcome α).bind f = .abort := rfl

@[simp]
theorem bind_spin (f : α → Outcome β) : (Outcome.spin : Outcome α).bind f = .spin := rfl

theorem bind_assoc {γ : Type} (o : Outcome α) (f : α → Outcome β) (g : β → Outcome γ) :
    (o.bind f).bind g = o.bind fun a => (f a).bind g := by
  cases o with
  | ok a => rfl
  | error e => rfl
  | abort => rfl
  | spin => rfl

theorem unwrap_ok {op : Op α} (h : op s = (.ok a, s')) : unwrap op s = .ok (a, s') := by
  rw [unwrap, h]

theorem unwrap_error {op : Op α} {e : String} (h : op s = (.error e, s')) : unwrap op s = .abort := by
  rw [unwrap, h]

theorem attempt_ok {op : Op α} (h : op s = (.ok a, s')) : attempt op s = .ok (a, s') := by
  rw [attempt, h]

theorem attempt_error {op : Op α} {e : String} (h : op s = (.error e, s')) : attempt op s = .error e := by
  rw [attempt, h]

theorem ignore_eq {op : Op α} (h : (op s).2 = s') : ignore op s = .ok ((), s') := by
  rw [ignore, h]

theorem expect_true {op : Op Bool} {e : String} (h : op s = (.ok true, s')) : expect op e s = .ok ((), s') := by
  rw [expect, bind_eq, attempt_ok h]
  rfl

theorem expect_false {op : Op Bool} {e : String} (h : op s = (.ok false, s')) : expect op e s = .error e := by
  rw [expect, bind_eq, attempt_ok h]
  rfl

theorem expect_error {op : Op Bool} {e e' : String} (h : op s = (.error e', s')) : expect op e s = .error e' := by
  rw [expect, bind_eq, attempt_error h]
  rfl

/-! ### White space before a token -/

theorem skipSpaced_hit (h : s.rest = w ++ c :: l) (hw : Blanks w) (hc : isSpace c = false) :
    skipSpaced c s = (.ok true, s.advance (w.length + 1)) := by
  rw [skipSpaced_eq h hw hc, if_pos rfl]

theorem skipSpaced_miss (h : s.rest = w ++ b :: l) (hw : Blanks w) (hb : isSpace b = false) (hne : b ≠ c) :
    skipSpaced c s = (.ok false, s.advance w.length) := by
  rw [skipSpaced_eq h hw hb, if_neg hne]

/-- The scanner may stand before the white space or behind it. -/
theorem skipSpaces_advance (h : s.rest = w ++ x) (hw : Blanks w) (hx : NoSpace x) :
    (skipSpaces (s.advance w.length)).2 = (skipSpaces s).2 := by
  have hx' : (s.advance w.length).rest = [] ++ x := Scanner.rest_advance h
  rw [skipSpaces_eq hx' spaces_nil hx, skipSpaces_eq h hw hx]
  rfl

theorem skipSpaced_advance (h : s.rest = w ++ x) (hw : Blanks w) (hx : NoSpace x) (c : UInt8) :
    skipSpaced c (s.advance w.length) = skipSpaced c s := by
  rw [skipSpaced, skipSpaced, skipSpaces_advance h hw hx]

theorem parseKey_advance (h : s.rest = w ++ x) (hw : Blanks w) (hx : NoSpace x) :
    parseKey (s.advance w.length) = parseKey s := by
  simp only [parseKey, bind_eq, ignore, skipSpaces_advance h hw hx]

theorem parseValue_advance (n : ℕ) (h : s.rest = w ++ x) (hw : Blanks w) (hx : NoSpace x) :
    parseValue n (s.advance w.length) = parseValue n s := by
  cases n with
  | zero => rfl
  | succ n => simp only [parseValue, bind_eq, unwrap, skipSpaced_advance h hw hx]

theorem noSpace_cons (hb : isSpace b = false) : NoSpace (b :: x) := fun _ hb' => Option.some.inj hb' ▸ hb

theorem noDigit_cons (hb : isDigit b = false) : NoDigit (b :: x) := fun _ hb' => Option.some.inj hb' ▸ hb

/-- White space, and then nothing or a token. -/
theorem spaces_cases (l : List UInt8) :
    Blanks l ∨ ∃ w b x, l = w ++ b :: x ∧ Blanks w ∧ isSpace b = false := by
  obtain ⟨w, x, hl, hw, hx⟩ := split_of isSpace l
  cases x with
  | nil => exact Or.inl (by rw [hl, List.append_nil]; exact hw)
  | cons b x => exact Or.inr ⟨w, b, x, hl, hw, hx b rfl⟩

/-! ### The beginning of a value -/

theorem parseValue_ended (n : ℕ) (h : Blanks s.rest) : parseValue (n + 1) s = .abort := by
  rw [parseValue, bind_eq, unwrap_error (skipSpaced_ended rfl h _)]
  rfl

theorem parseValue_object (n : ℕ) (h : s.rest = w ++ openBrace :: l) (hw : Blanks w) :
    parseValue (n + 1) s = parseObject (parseValue n) n (s.advance (w.length + 1)) := by
  rw [parseValue, bind_eq, unwrap_ok (skipSpaced_hit h hw (by decide))]
  rfl

theorem parseValue_array (n : ℕ) (h : s.rest = w ++ openBracket :: l) (hw : Blanks w) :
    parseValue (n + 1) s = parseArray (parseValue n) n (s.advance (w.length + 1)) := by
  have h1 : (s.advance w.length).rest = [] ++ openBracket :: l := Scanner.rest_advance h
  rw [parseValue, bind_eq, unwrap_ok (skipSpaced_miss h hw (by decide) (by decide)), bind_ok]
  simp only [Bool.false_eq_true, if_false]
  rw [bind_eq, unwrap_ok (skipSpaced_hit h1 spaces_nil (by decide))]
  rfl

theorem parseValue_scalar (n : ℕ) (h : s.rest = w ++ b :: l) (hw : Blanks w) (hb : isSpace b = false)
    (hbrace : b ≠ openBrace) (hbracket : b ≠ openBracket) :
    parseValue (n + 1) s = parseScalar (s.advance w.length) := by
  have h1 : (s.advance w.length).rest = [] ++ b :: l := Scanner.rest_advance h
  rw [parseValue, bind_eq, unwrap_ok (skipSpaced_miss h hw hb hbrace), bind_ok]
  simp only [Bool.false_eq_true, if_false]
  rw [bind_eq, unwrap_ok (skipSpaced_miss h1 spaces_nil hb hbracket), bind_ok]
  rfl

/-! ### Words, strings and integers -/

theorem starts_iff_take : k <+: x ↔ x.take k.length = k := by
  rw [List.prefix_iff_eq_take]
  exact ⟨Eq.symm, Eq.symm⟩

/-- A word at the end of the buffer is read to its end. -/
theorem parseScalar_true (h : s.rest = trueText ++ l) :
    parseScalar s = .ok (Value.json (.boolean true), s.advance trueText.length) := by
  have hskip := skipString_eq h (k := trueText) (by simp [trueText]) (by simp)
  rw [List.take_left, if_pos rfl] at hskip
  rw [parseScalar, bind_eq, unwrap_ok hskip, bind_ok, if_pos rfl, pure_eq, Value.json]

/-- Fewer than five bytes are not enough for what is not `true`. -/
theorem parseScalar_short (h : s.rest = x) (hx : x ≠ []) (hlen : x.length < falseText.length)
    (htrue : ¬trueText <+: x) : parseScalar s = .abort := by
  rw [parseScalar, bind_eq]
  by_cases hfour : x.length < trueText.length
  · rw [unwrap_error (skipString_short h hx hfour)]
    rfl
  · have hskip := skipString_eq h hx (Nat.le_of_not_lt hfour)
    rw [if_neg fun heq => htrue (starts_iff_take.mpr heq)] at hskip
    rw [unwrap_ok hskip, bind_ok]
    simp only [Bool.false_eq_true, if_false]
    rw [bind_eq, unwrap_error (skipString_short h hx hlen)]
    rfl

/-- With five bytes or more, one alternative is tried after the other. -/
theorem parseScalar_eq (h : s.rest = x) (hlen : falseText.length ≤ x.length) (htrue : ¬trueText <+: x) :
    parseScalar s = if falseText <+: x then .ok (Value.json (.boolean false), s.advance falseText.length)
      else if nullText <+: x then .ok (Value.json .null, s.advance nullText.length)
      else parseStringOrInt s := by
  have hx : x ≠ [] := fun hnil => by
    rw [hnil] at hlen
    exact absurd hlen (by decide)
  have hfour : nullText.length ≤ x.length := Nat.le_trans (by decide) hlen
  have hskip := skipString_eq h hx (k := trueText) hfour
  rw [if_neg fun heq => htrue (starts_iff_take.mpr heq)] at hskip
  have hskip' := skipString_eq h hx hlen
  have hskip'' := skipString_eq h hx hfour
  rw [parseScalar, bind_eq, unwrap_ok hskip, bind_ok]
  simp only [Bool.false_eq_true, if_false]
  rw [bind_eq]
  by_cases hfalse : falseText <+: x
  · rw [if_pos (starts_iff_take.mp hfalse)] at hskip'
    rw [if_pos hfalse, unwrap_ok hskip', bind_ok, if_pos rfl, pure_eq, Value.json]
  · rw [if_neg fun heq => hfalse (starts_iff_take.mpr heq)] at hskip'
    rw [if_neg hfalse, unwrap_ok hskip', bind_ok]
    simp only [Bool.false_eq_true, if_false]
    rw [bind_eq]
    by_cases hnull : nullText <+: x
    · rw [if_pos (starts_iff_take.mp hnull)] at hskip''
      rw [if_pos hnull, unwrap_ok hskip'', bind_ok, if_pos rfl, pure_eq, Value.json]
    · rw [if_neg fun heq => hnull (starts_iff_take.mpr heq)] at hskip''
      rw [if_neg hnull, unwrap_ok hskip'', bind_ok]
      rfl

theorem parseString_eq (h : s.rest = quote :: (k ++ quote :: l)) (hk : quote ∉ k) :
    parseStringOrInt s = .ok (Value.json (.string k), s.advance (k.length + 2)) := by
  have hquote : s.rest = [] ++ quote :: (k ++ quote :: l) := h
  have h1 : (s.advance 1).rest = k ++ quote :: l := Scanner.rest_advance (l := [quote]) h
  have h2 : ((s.advance 1).advance k.length).rest = quote :: l := Scanner.rest_advance h1
  have hskip := skip_eq h2 quote
  rw [if_pos rfl, Scanner.advance_advance, Scanner.advance_advance] at hskip
  have hclosed : (skip quote (s.advance (1 + k.length))).2 = s.advance (1 + k.length + 1) := by rw [hskip]
  rw [parseStringOrInt, bind_eq, unwrap_ok (skipSpaced_hit hquote spaces_nil (by decide)), bind_ok, if_pos rfl, bind_eq,
    List.length_nil, Nat.zero_add, attempt_ok (readUntil_eq h1 hk), bind_ok, bind_eq, Scanner.advance_advance,
    ignore_eq hclosed, bind_ok, pure_eq, Value.json,
    show 1 + k.length + 1 = k.length + 2 by omega]

theorem parseString_open (h : s.rest = quote :: x) (hx : quote ∉ x) : ∃ e, parseStringOrInt s = .error e := by
  have hquote : s.rest = [] ++ quote :: x := h
  have h1 : (s.advance 1).rest = x := Scanner.rest_advance (l := [quote]) h
  obtain ⟨s1, hread⟩ := readUntil_ended (s := s.advance 1) (by rw [h1]; exact hx) (by decide)
  refine ⟨endReached, ?_⟩
  rw [parseStringOrInt, bind_eq, unwrap_ok (skipSpaced_hit hquote spaces_nil (by decide)), bind_ok, if_pos rfl, bind_eq,
    List.length_nil, Nat.zero_add, attempt_error hread]
  rfl

theorem parseStringOrInt_int (h : s.rest = b :: x) (hb : isSpace b = false) (hquote : b ≠ quote) :
    parseStringOrInt s = (parseInt s).bind fun r => .ok (Value.json (.number r.1), r.2) := by
  have h' : s.rest = [] ++ b :: x := h
  rw [parseStringOrInt, bind_eq, unwrap_ok (skipSpaced_miss h' spaces_nil hb hquote), bind_ok]
  simp only [Bool.false_eq_true, if_false]
  rw [bind_eq]
  simp only [List.length_nil, Scanner.advance_zero, pure_eq, Value.json]

theorem parseInt_eq {d : List UInt8} (h : s.rest = d ++ l) (hd : Numeral d) (hl : NoDigit l) :
    parseInt s = .ok (toInt (numeralValue d), s.advance d.length) := by
  rw [parseInt, skipInt_eq h hd hl]

/-- Where there is no numeral, an error is returned: the log does not stop the
program. -/
theorem parseInt_cases (s : Scanner) :
    (∃ d l, s.rest = d ++ l ∧ Numeral d ∧ NoDigit l) ∨ ∃ e, parseInt s = .error e := by
  refine (skipInt_cases s).imp_right ?_
  rintro ⟨e, hskip⟩
  have hread : ∃ l s1, readUntil 0 s = (.ok l, s1) := by
    simp only [readUntil, ne_eq, not_true_eq_false, and_false, if_false]
    exact ⟨_, _, rfl⟩
  obtain ⟨l, s1, hread⟩ := hread
  refine ⟨e, ?_⟩
  simp only [parseInt, hskip, bind_eq, unwrap_ok hread, bind_ok]
  rfl

/-! ### Keys -/

/-- A key up to its second quote. -/
theorem parseKey_quoted {key : List UInt8} (h : s.rest = w ++ quote :: (key ++ quote :: l)) (hw : Blanks w)
    (hkey : quote ∉ key) :
    parseKey s = (ignore skipSpaces (s.advance (w.length + key.length + 2))).bind fun r =>
      (expect (skipSpaced colon) "Expected ':' after key" r.2).bind fun r => .ok (key, r.2) := by
  have hspaces := skipSpaces_eq h hw (noSpace_cons (by decide))
  have h1 : (s.advance w.length).rest = [] ++ quote :: (key ++ quote :: l) := Scanner.rest_advance h
  have h2 : ((s.advance w.length).advance 1).rest = key ++ quote :: l := Scanner.rest_advance (l := [quote]) h1
  have h3 : (((s.advance w.length).advance 1).advance key.length).rest = [] ++ quote :: l := Scanner.rest_advance h2
  have hcursor : (((s.advance w.length).advance 1).advance key.length).advance 1 =
      s.advance (w.length + key.length + 2) := by
    simp only [Scanner.advance_advance]
    congr 1
    omega
  simp only [parseKey, bind_eq, ignore_eq hspaces, bind_ok, expect_true (skipSpaced_hit h1 spaces_nil (by decide)),
    List.length_nil, Nat.zero_add, attempt_ok (readUntil_eq h2 hkey),
    expect_true (skipSpaced_hit h3 spaces_nil (by decide)), pure_eq, hcursor]

theorem rest_quoted {key : List UInt8} (h : s.rest = w ++ quote :: (key ++ quote :: l)) :
    (s.advance (w.length + key.length + 2)).rest = l := by
  have hcut : s.rest = (w ++ quote :: (key ++ [quote])) ++ l := by
    rw [h]
    simp only [List.append_assoc, List.cons_append, List.nil_append]
  have hrest := Scanner.rest_advance hcut
  rwa [show (w ++ quote :: (key ++ [quote])).length = w.length + key.length + 2 by
    simp only [List.length_append, List.length_cons, List.length_nil]
    omega] at hrest

theorem parseKey_eq {key : List UInt8} (h : s.rest = k ++ l) (hk : KeyText key k) :
    parseKey s = .ok (key, s.advance k.length) := by
  obtain ⟨w, w', hw, hw', hkey, rfl⟩ := hk
  have hcut : s.rest = w ++ quote :: (key ++ quote :: (w' ++ colon :: l)) := by
    rw [h]
    simp only [List.append_assoc, List.cons_append, List.nil_append]
  have hrest := rest_quoted hcut
  have hspaces := skipSpaces_eq hrest hw' (noSpace_cons (by decide))
  have hcolon : ((s.advance (w.length + key.length + 2)).advance w'.length).rest = [] ++ colon :: l :=
    Scanner.rest_advance hrest
  rw [parseKey_quoted hcut hw hkey, ignore_eq hspaces, bind_ok,
    expect_true (skipSpaced_hit hcolon spaces_nil (by decide)), bind_ok, Scanner.advance_advance,
    Scanner.advance_advance]
  simp only [List.length_append, List.length_cons, List.length_nil]
  congr 3
  omega

/-- A key that is not there is an error. -/
theorem parseKey_cases (s : Scanner) :
    (∃ key k l, s.rest = k ++ l ∧ KeyText key k) ∨ ∃ e, parseKey s = .error e := by
  rcases spaces_cases s.rest with hw | ⟨w, b, x, h, hw, hb⟩
  · have hrest : s.rest = s.rest ++ [] := (List.append_nil _).symm
    have hspaces := skipSpaces_eq hrest hw fun b hb => absurd hb (by simp)
    have hend : (s.advance s.rest.length).rest = [] := Scanner.rest_advance hrest
    refine Or.inr ⟨endReached, ?_⟩
    rw [parseKey, bind_eq, ignore_eq hspaces, bind_ok, bind_eq, expect_error (skipSpaced_ended hend spaces_nil _)]
    rfl
  have hspaces := skipSpaces_eq h hw (noSpace_cons hb)
  have hfirst : (s.advance w.length).rest = [] ++ b :: x := Scanner.rest_advance h
  by_cases hquote : b = quote
  · subst hquote
    have hafter : ((s.advance w.length).advance 1).rest = x := Scanner.rest_advance (l := [quote]) hfirst
    by_cases hopen : quote ∈ x
    · obtain ⟨key, l, rfl, hkey⟩ := List.eq_append_cons_of_mem hopen
      have hrest := rest_quoted h
      rcases spaces_cases l with hw' | ⟨w', c, l', hl, hw', hc⟩
      · have hspaces' := skipSpaces_eq (hrest.trans (List.append_nil l).symm) hw' fun b hb => absurd hb (by simp)
        have hend : ((s.advance (w.length + key.length + 2)).advance l.length).rest = [] :=
          Scanner.rest_advance (hrest.trans (List.append_nil l).symm)
        refine Or.inr ⟨endReached, ?_⟩
        rw [parseKey_quoted h hw hkey, ignore_eq hspaces', bind_ok,
          expect_error (skipSpaced_ended hend spaces_nil _)]
        rfl
      · rw [hl] at hrest
        by_cases hcolon : c = colon
        · refine Or.inl ⟨key, w ++ quote :: (key ++ quote :: (w' ++ [colon])), l', ?_, w, w', hw, hw', hkey, rfl⟩
          rw [h, hl, hcolon]
          simp only [List.append_assoc, List.cons_append, List.nil_append]
        · have hspaces' := skipSpaces_eq hrest hw' (noSpace_cons hc)
          have hnext : ((s.advance (w.length + key.length + 2)).advance w'.length).rest = [] ++ c :: l' :=
            Scanner.rest_advance hrest
          refine Or.inr ⟨"Expected ':' after key", ?_⟩
          rw [parseKey_quoted h hw hkey, ignore_eq hspaces', bind_ok,
            expect_false (skipSpaced_miss hnext spaces_nil hc hcolon)]
          rfl
    · obtain ⟨s2, hread⟩ := readUntil_ended (by rw [hafter]; exact hopen) (by decide)
      refine Or.inr ⟨endReached, ?_⟩
      rw [parseKey, bind_eq, ignore_eq hspaces, bind_ok, bind_eq,
        expect_true (skipSpaced_hit hfirst spaces_nil (by decide)), bind_ok, bind_eq, List.length_nil, Nat.zero_add,
        attempt_error hread]
      rfl
  · refine Or.inr ⟨"Expected '\"' at the start of key", ?_⟩
    rw [parseKey, bind_eq, ignore_eq hspaces, bind_ok, bind_eq,
      expect_false (skipSpaced_miss hfirst spaces_nil hb hquote)]
    rfl

/-! ### Elements and members -/

/-- The rest of an array, from an element on. -/
def arrayFrom (value : Parser JsonValue) (n : ℕ) (values : List JsonValue) : Parser JsonValue :=
  arrayLoop value n values >>= closeArray

/-- The rest of an array, after an element. -/
def arrayNext (value : Parser JsonValue) (n : ℕ) (values : List JsonValue) : Parser JsonValue := do
  ignore skipSpaces
  if ← unwrap (skipSpaced comma) then arrayFrom value n values else closeArray values

/-- The rest of an object, from a member on. -/
def objectFrom (value : Parser JsonValue) (n : ℕ) (keys : List (List UInt8)) (values : List JsonValue) :
    Parser JsonValue :=
  objectLoop value n keys values >>= closeObject

/-- The rest of an object, after a member. -/
def objectNext (value : Parser JsonValue) (n : ℕ) (keys : List (List UInt8)) (values : List JsonValue) :
    Parser JsonValue := do
  if ← attempt (skipSpaced comma) then objectFrom value n keys values else closeObject (keys, values)

section Loops

variable {value : Parser JsonValue} {n : ℕ} {keys : List (List UInt8)} {values : List JsonValue}

theorem arrayFrom_ended (h : s.rest = []) : arrayFrom value (n + 1) values s = .abort := by
  have hloop : arrayLoop value (n + 1) values s = .ok (values, s) := if_pos (Scanner.ended_iff.mpr h)
  rw [arrayFrom, bind_eq, hloop, bind_ok, closeArray, bind_eq, unwrap_error (skipSpaced_ended h spaces_nil _)]
  rfl

theorem arrayFrom_pass (h : s.rest ≠ []) :
    arrayFrom value (n + 1) values s = (value s).bind fun r => arrayNext value n (values ++ [r.1]) r.2 := by
  have hloop : arrayLoop value (n + 1) values s = (value s).bind fun r =>
      (ignore skipSpaces r.2).bind fun r1 => (unwrap (skipSpaced comma) r1.2).bind fun r2 =>
        (if r2.1 then arrayLoop value n (values ++ [r.1]) else pure (values ++ [r.1]) : Parser _) r2.2 :=
    if_neg fun hended => h (Scanner.ended_iff.mp hended)
  rw [arrayFrom, bind_eq, hloop, bind_assoc]
  congr 1
  funext r
  simp only [arrayNext, bind_eq, bind_assoc]
  congr 1
  funext r1
  congr 1
  funext r2
  cases r2.1
  · rfl
  · rfl

theorem arrayNext_ended (h : Blanks s.rest) : arrayNext value n values s = .abort := by
  have hrest : s.rest = s.rest ++ [] := (List.append_nil _).symm
  have hspaces := skipSpaces_eq hrest h fun b hb => absurd hb (by simp)
  rw [arrayNext, bind_eq, ignore_eq hspaces, bind_ok, bind_eq,
    unwrap_error (skipSpaced_ended (Scanner.rest_advance hrest) spaces_nil _)]
  rfl

theorem arrayNext_comma (h : s.rest = w ++ comma :: l) (hw : Blanks w) :
    arrayNext value n values s = arrayFrom value n values (s.advance (w.length + 1)) := by
  have hspaces := skipSpaces_eq h hw (noSpace_cons (by decide))
  have hfirst : (s.advance w.length).rest = [] ++ comma :: l := Scanner.rest_advance h
  rw [arrayNext, bind_eq, ignore_eq hspaces, bind_ok, bind_eq,
    unwrap_ok (skipSpaced_hit hfirst spaces_nil (by decide)), bind_ok, if_pos rfl, List.length_nil, Nat.zero_add,
    Scanner.advance_advance]

theorem arrayNext_other (h : s.rest = w ++ b :: l) (hw : Blanks w) (hb : isSpace b = false) (hcomma : b ≠ comma) :
    arrayNext value n values s =
      if b = closeBracket then .ok ({ type := .array, values }, s.advance (w.length + 1))
      else .error "Expected ']' at the end of object" := by
  have hspaces := skipSpaces_eq h hw (noSpace_cons hb)
  have hfirst : (s.advance w.length).rest = [] ++ b :: l := Scanner.rest_advance h
  have hsame : (s.advance w.length).advance ([] : List UInt8).length = s.advance w.length := rfl
  rw [arrayNext, bind_eq, ignore_eq hspaces, bind_ok, bind_eq,
    unwrap_ok (skipSpaced_miss hfirst spaces_nil hb hcomma), bind_ok, hsame]
  simp only [Bool.false_eq_true, if_false]
  rw [closeArray, bind_eq]
  by_cases hclose : b = closeBracket
  · subst hclose
    rw [if_pos rfl, unwrap_ok (skipSpaced_hit hfirst spaces_nil hb), bind_ok, if_pos rfl, pure_eq, List.length_nil,
      Nat.zero_add, Scanner.advance_advance]
  · rw [if_neg hclose, unwrap_ok (skipSpaced_miss hfirst spaces_nil hb hclose)]
    rfl

theorem objectFrom_ended (h : s.rest = []) : ∃ e, objectFrom value (n + 1) keys values s = .error e := by
  have hloop : objectLoop value (n + 1) keys values s = .ok ((keys, values), s) := if_pos (Scanner.ended_iff.mpr h)
  have hrest : s.rest = [] ++ [] := h
  have hspaces : (skipSpaces s).2 = s := skipSpaces_eq hrest spaces_nil fun b hb => absurd hb (by simp)
  refine ⟨endReached, ?_⟩
  rw [objectFrom, bind_eq, hloop, bind_ok, closeObject, bind_eq, ignore_eq hspaces, bind_ok, bind_eq,
    expect_error (skip_ended h _)]
  rfl

theorem objectFrom_pass (h : s.rest ≠ []) :
    objectFrom value (n + 1) keys values s = (parseKey s).bind fun r => (value r.2).bind fun r1 =>
      objectNext value n (keys ++ [r.1]) (values ++ [r1.1]) r1.2 := by
  have hloop : objectLoop value (n + 1) keys values s = (parseKey s).bind fun r => (value r.2).bind fun r1 =>
      (attempt (skipSpaced comma) r1.2).bind fun r2 =>
        (if r2.1 then objectLoop value n (keys ++ [r.1]) (values ++ [r1.1])
          else pure (keys ++ [r.1], values ++ [r1.1]) : Parser _) r2.2 :=
    if_neg fun hended => h (Scanner.ended_iff.mp hended)
  rw [objectFrom, bind_eq, hloop, bind_assoc]
  congr 1
  funext r
  rw [bind_assoc]
  congr 1
  funext r1
  simp only [objectNext, bind_eq, bind_assoc]
  congr 1
  funext r2
  cases r2.1
  · rfl
  · rfl

theorem objectNext_ended (h : Blanks s.rest) : ∃ e, objectNext value n keys values s = .error e := by
  refine ⟨endReached, ?_⟩
  rw [objectNext, bind_eq, attempt_error (skipSpaced_ended rfl h _)]
  rfl

theorem objectNext_comma (h : s.rest = w ++ comma :: l) (hw : Blanks w) :
    objectNext value n keys values s = objectFrom value n keys values (s.advance (w.length + 1)) := by
  rw [objectNext, bind_eq, attempt_ok (skipSpaced_hit h hw (by decide)), bind_ok, if_pos rfl]

theorem objectNext_other (h : s.rest = w ++ b :: l) (hw : Blanks w) (hb : isSpace b = false) (hcomma : b ≠ comma) :
    objectNext value n keys values s =
      if b = closeBrace then .ok ({ type := .object, keys, values }, s.advance (w.length + 1))
      else .error "Expected '\x7d' at the end of object" := by
  have hfirst : (s.advance w.length).rest = b :: l := Scanner.rest_advance h
  have hrest : (s.advance w.length).rest = [] ++ b :: l := hfirst
  have hspaces : (skipSpaces (s.advance w.length)).2 = s.advance w.length :=
    skipSpaces_eq hrest spaces_nil (noSpace_cons hb)
  have hskip := skip_eq hfirst closeBrace
  rw [objectNext, bind_eq, attempt_ok (skipSpaced_miss h hw hb hcomma), bind_ok]
  simp only [Bool.false_eq_true, if_false]
  rw [closeObject, bind_eq, ignore_eq hspaces, bind_ok, bind_eq]
  by_cases hclose : b = closeBrace
  · rw [if_pos hclose, Scanner.advance_advance] at hskip
    rw [if_pos hclose, expect_true hskip, bind_ok, pure_eq]
  · rw [if_neg hclose] at hskip
    rw [if_neg hclose, expect_false hskip]
    rfl

/-- The loops may begin behind white space. -/
theorem arrayFrom_advance {m : ℕ} (h : s.rest = w ++ b :: l) (hw : Blanks w) (hb : isSpace b = false) :
    arrayFrom (parseValue m) n values (s.advance w.length) = arrayFrom (parseValue m) n values s := by
  have hfirst : (s.advance w.length).rest = b :: l := Scanner.rest_advance h
  cases n with
  | zero => rfl
  | succ n =>
    rw [arrayFrom_pass (by rw [hfirst]; simp), arrayFrom_pass (by rw [h]; simp),
      parseValue_advance m h hw (noSpace_cons hb)]

theorem objectFrom_advance (h : s.rest = w ++ b :: l) (hw : Blanks w) (hb : isSpace b = false) :
    objectFrom value n keys values (s.advance w.length) = objectFrom value n keys values s := by
  have hfirst : (s.advance w.length).rest = b :: l := Scanner.rest_advance h
  cases n with
  | zero => rfl
  | succ n =>
    rw [objectFrom_pass (by rw [hfirst]; simp), objectFrom_pass (by rw [h]; simp),
      parseKey_advance h hw (noSpace_cons hb)]

theorem parseArray_ended (h : Blanks s.rest) : parseArray value n s = .abort := by
  rw [parseArray, bind_eq, unwrap_error (skipSpaced_ended rfl h _)]
  rfl

theorem parseArray_empty (h : s.rest = w ++ closeBracket :: l) (hw : Blanks w) :
    parseArray value n s = .ok (Value.json (.array []), s.advance (w.length + 1)) := by
  rw [parseArray, bind_eq, unwrap_ok (skipSpaced_hit h hw (by decide)), bind_ok, if_pos rfl, pure_eq, Value.json,
    List.map_nil]

theorem parseArray_from {m : ℕ} (h : s.rest = w ++ b :: l) (hw : Blanks w) (hb : isSpace b = false)
    (hclose : b ≠ closeBracket) : parseArray (parseValue m) n s = arrayFrom (parseValue m) n [] s := by
  rw [parseArray, bind_eq, unwrap_ok (skipSpaced_miss h hw hb hclose), bind_ok]
  exact arrayFrom_advance h hw hb

theorem parseObject_ended (h : Blanks s.rest) : parseObject value n s = .abort := by
  rw [parseObject, bind_eq, unwrap_error (skipSpaced_ended rfl h _)]
  rfl

theorem parseObject_empty (h : s.rest = w ++ closeBrace :: l) (hw : Blanks w) :
    parseObject value n s = .ok (Value.json (.object []), s.advance (w.length + 1)) := by
  rw [parseObject, bind_eq, unwrap_ok (skipSpaced_hit h hw (by decide)), bind_ok, if_pos rfl, pure_eq, Value.json,
    List.map_nil, List.map_nil]

theorem parseObject_from (h : s.rest = w ++ b :: l) (hw : Blanks w) (hb : isSpace b = false) (hclose : b ≠ closeBrace) :
    parseObject value n s = objectFrom value n [] [] s := by
  rw [parseObject, bind_eq, unwrap_ok (skipSpaced_miss h hw hb hclose), bind_ok]
  exact objectFrom_advance h hw hb

end Loops

end Json
end WingOS
