/-
# The JSON parser

`parse_json_value` and `Json::parse` of `json/json.cpp`, over the scanner. A
`Parser` gives a value and the scanner after it, or returns an error; an
`unwrap()` of an error stops the program (`abort`). The recursion and the loops
run with a bound, which is never reached (`parseValue_meets`).

Beside it what the texts are: `Text N` relates a value to what it is written as,
with white space between the tokens, where `N` says which numerals an integer
has. `BreaksOff` are the texts in which the parser runs into the end of the
buffer while it tries one alternative after the other.

Key definitions: `JsonValue`, `parseValue`, `parse`, `Value`, `Text`, `BreaksOff`.
-/
import WingOS.Scanner

namespace WingOS
namespace Json

open Scan

/-- What becomes of a parse; `spin` is a bound that is reached. -/
inductive Outcome (α : Type) where
  | ok (a : α)
  | error (message : String)
  | abort
  | spin

def Outcome.bind {α β : Type} (o : Outcome α) (f : α → Outcome β) : Outcome β :=
  match o with
  | .ok a => f a
  | .error message => .error message
  | .abort => .abort
  | .spin => .spin

def Outcome.map {α β : Type} (f : α → β) (o : Outcome α) : Outcome β := o.bind fun a => .ok (f a)

def Parser (α : Type) := Scanner → Outcome (α × Scanner)

instance : Monad Parser where
  pure a := fun s => .ok (a, s)
  bind p f := fun s => (p s).bind fun r => f r.1 r.2

variable {α : Type}

/-- `op.unwrap()`. -/
def unwrap (op : Op α) : Parser α := fun s =>
  match op s with
  | (.ok a, s) => .ok (a, s)
  | (.error _, _) => .abort

/-- `try$(op)`. -/
def attempt (op : Op α) : Parser α := fun s =>
  match op s with
  | (.ok a, s) => .ok (a, s)
  | (.error e, _) => .error e

/-- The result of `op` is not looked at. -/
def ignore (op : Op α) : Parser Unit := fun s => .ok ((), (op s).2)

def fail (message : String) : Parser α := fun _ => .error message

/-- `if (!try$(op)) return error(message)`. -/
def expect (op : Op Bool) (message : String) : Parser Unit := do
  if ← attempt op then pure () else fail message

def spin : Parser α := fun _ => .spin

inductive JsonType where
  | null
  | boolean
  | number
  | string
  | array
  | object
  deriving DecidableEq

/-- A value, with its storage. -/
structure JsonValue where
  type : JsonType := .null
  raw : List UInt8 := []
  boolean : Bool := false
  integer : ℤ := 0
  keys : List (List UInt8) := []
  values : List JsonValue := []

def openBrace : UInt8 := 0x7b
def closeBrace : UInt8 := 0x7d
def openBracket : UInt8 := 0x5b
def closeBracket : UInt8 := 0x5d

/-- `true`, `false` and `null`. -/
def trueText : List UInt8 := [0x74, 0x72, 0x75, 0x65]
def falseText : List UInt8 := [0x66, 0x61, 0x6c, 0x73, 0x65]
def nullText : List UInt8 := [0x6e, 0x75, 0x6c, 0x6c]

/-- A key, with its quotes and the colon. -/
def parseKey : Parser (List UInt8) := do
  ignore skipSpaces
  expect (skipSpaced quote) "Expected '\"' at the start of key"
  let key ← attempt (readUntil quote)
  expect (skipSpaced quote) "Expected '\"' at the end of key"
  ignore skipSpaces
  expect (skipSpaced colon) "Expected ':' after key"
  pure key

/-- The loop over the members of an object, where `value` parses a value. -/
def objectLoop (value : Parser JsonValue) :
    ℕ → List (List UInt8) → List JsonValue → Parser (List (List UInt8) × List JsonValue)
  | 0, _, _ => spin
  | n + 1, keys, values => fun s =>
    if s.ended then .ok ((keys, values), s)
    else (do
      let key ← parseKey
      let val ← value
      if ← attempt (skipSpaced comma) then objectLoop value n (keys ++ [key]) (values ++ [val])
      else pure (keys ++ [key], values ++ [val]) : Parser _) s

def closeObject (r : List (List UInt8) × List JsonValue) : Parser JsonValue := do
  ignore skipSpaces
  expect (skip closeBrace) "Expected '\x7d' at the end of object"
  pure { type := .object, keys := r.1, values := r.2 }

/-- An object, after its brace. -/
def parseObject (value : Parser JsonValue) (n : ℕ) : Parser JsonValue := do
  if ← unwrap (skipSpaced closeBrace) then pure { type := .object }
  else objectLoop value n [] [] >>= closeObject

/-- The loop over the elements of an array. -/
def arrayLoop (value : Parser JsonValue) : ℕ → List JsonValue → Parser (List JsonValue)
  | 0, _ => spin
  | n + 1, values => fun s =>
    if s.ended then .ok (values, s)
    else (do
      let val ← value
      ignore skipSpaces
      if ← unwrap (skipSpaced comma) then arrayLoop value n (values ++ [val])
      else pure (values ++ [val]) : Parser _) s

def closeArray (values : List JsonValue) : Parser JsonValue := do
  if ← unwrap (skipSpaced closeBracket) then pure { type := .array, values }
  else fail "Expected ']' at the end of object"

/-- An array, after its bracket. -/
def parseArray (value : Parser JsonValue) (n : ℕ) : Parser JsonValue := do
  if ← unwrap (skipSpaced closeBracket) then pure { type := .array }
  else arrayLoop value n [] >>= closeArray

/-- An integer; where there is none, the rest of the buffer is logged. -/
def parseInt : Parser ℤ := fun s =>
  match skipInt s with
  | (.ok n, s) => .ok (n, s)
  | (.error e, s) => (do
    let _ ← unwrap (readUntil 0)
    fail e : Parser ℤ) s

/-- The last alternatives: a string, or an integer. -/
def parseStringOrInt : Parser JsonValue := do
  if ← unwrap (skipSpaced quote) then do
    let str ← attempt (readUntil quote)
    ignore (skip quote)
    pure { type := .string, raw := str }
  else do
    let integer ← parseInt
    pure { type := .number, integer }

/-- The alternatives after the object and the array. -/
def parseScalar : Parser JsonValue := do
  if ← unwrap (skipString trueText) then pure { type := .boolean, boolean := true }
  else if ← unwrap (skipString falseText) then pure { type := .boolean, boolean := false }
  else if ← unwrap (skipString nullText) then pure { type := .null }
  else parseStringOrInt

/-- `parse_json_value`, of a depth below the bound. -/
def parseValue : ℕ → Parser JsonValue
  | 0 => spin
  | n + 1 => do
    if ← unwrap (skipSpaced openBrace) then parseObject (parseValue n) n
    else if ← unwrap (skipSpaced openBracket) then parseArray (parseValue n) n
    else parseScalar

def parseJsonValue : Parser JsonValue := fun s => parseValue (s.rest.length + 1) s

/-- `Json::parse`, and the root of what it gives. -/
def parse (reader : List UInt8) : Outcome JsonValue := (parseJsonValue ⟨reader, 0⟩).map Prod.fst

/-! ### Values and their texts -/

inductive Value where
  | null
  | boolean (b : Bool)
  | number (n : ℤ)
  | string (s : List UInt8)
  | array (values : List Value)
  | object (members : List (List UInt8 × Value))

/-- The value in the storage of the parser. -/
def Value.json : Value → JsonValue
  | .null => { type := .null }
  | .boolean b => { type := .boolean, boolean := b }
  | .number n => { type := .number, integer := n }
  | .string s => { type := .string, raw := s }
  | .array values => { type := .array, values := values.map Value.json }
  | .object members => { type := .object, keys := members.map Prod.fst, values := members.map fun m => m.2.json }
decreasing_by
  · rename_i hmem
    have hlt := List.sizeOf_lt_of_mem hmem
    simp only [Value.array.sizeOf_spec]
    omega
  · rename_i hmem
    have hlt := List.sizeOf_lt_of_mem hmem
    rw [show sizeOf m = 1 + sizeOf m.1 + sizeOf m.2 from rfl] at hlt
    simp only [Value.object.sizeOf_spec]
    omega

/-! ### Texts -/

/-- What a text is of. -/
inductive Part where
  | value (v : Value)
  | elements (values : List Value)
  | members (members : List (List UInt8 × Value))

/-- A key with its quotes and the colon, and white space between them. -/
def KeyText (key r : List UInt8) : Prop :=
  ∃ w w', Blanks w ∧ Blanks w' ∧ quote ∉ key ∧ r = w ++ quote :: (key ++ quote :: (w' ++ [colon]))

/-- **The texts of a value**, with white space before each token; `N n d` are the
numerals `d` of the integer `n`. -/
inductive Text (N : ℤ → List UInt8 → Prop) : Part → List UInt8 → Prop
  | null {w} : Blanks w → Text N (.value .null) (w ++ nullText)
  | true {w} : Blanks w → Text N (.value (.boolean true)) (w ++ trueText)
  | false {w} : Blanks w → Text N (.value (.boolean false)) (w ++ falseText)
  | number {w n d} : Blanks w → N n d → Text N (.value (.number n)) (w ++ d)
  | string {w s} : Blanks w → quote ∉ s → Text N (.value (.string s)) (w ++ quote :: (s ++ [quote]))
  | emptyArray {w w'} : Blanks w → Blanks w' →
      Text N (.value (.array [])) (w ++ openBracket :: (w' ++ [closeBracket]))
  | array {w values r} : Blanks w → Text N (.elements values) r →
      Text N (.value (.array values)) (w ++ openBracket :: (r ++ [closeBracket]))
  | emptyObject {w w'} : Blanks w → Blanks w' →
      Text N (.value (.object [])) (w ++ openBrace :: (w' ++ [closeBrace]))
  | object {w members r} : Blanks w → Text N (.members members) r →
      Text N (.value (.object members)) (w ++ openBrace :: (r ++ [closeBrace]))
  | element {v r w} : Text N (.value v) r → Blanks w → Text N (.elements [v]) (r ++ w)
  | elements {v r w values r'} : Text N (.value v) r → Blanks w → Text N (.elements values) r' →
      Text N (.elements (v :: values)) (r ++ (w ++ comma :: r'))
  | member {key k v r w} : KeyText key k → Text N (.value v) r → Blanks w →
      Text N (.members [(key, v)]) (k ++ (r ++ w))
  | members {key k v r w members r'} : KeyText key k → Text N (.value v) r → Blanks w →
      Text N (.members members) r' → Text N (.members ((key, v) :: members)) (k ++ (r ++ (w ++ comma :: r')))

/-- The numerals that are read as `n`: modulo 2^32. -/
def Reads (n : ℤ) (d : List UInt8) : Prop := Numeral d ∧ n = toInt (numeralValue d)

/-- The numerals that stand for `n`. -/
def Denotes (n : ℤ) (d : List UInt8) : Prop := Numeral d ∧ n = numeralValue d

/-- Those of an integer of absolute value below 2^31. -/
def DenotesSmall (n : ℤ) (d : List UInt8) : Prop := Denotes n d ∧ n.natAbs < 2 ^ 31

/-- Where the parser is. -/
inductive Place where
  | value
  | elements
  | members

/-- **The texts that break off.** The buffer ends where the parser still looks
for one alternative after the other: before a value or in it, or after an element
of an array. -/
inductive BreaksOff : Place → List UInt8 → Prop
  | ended {w} : Blanks w → BreaksOff .value w
  | scalar {w b x} : Blanks w → isSpace b = false → b ≠ openBrace → b ≠ openBracket →
      (b :: x).length < falseText.length → ¬trueText <+: b :: x → BreaksOff .value (w ++ b :: x)
  | opened {w w'} : Blanks w → Blanks w' → BreaksOff .value (w ++ openBrace :: w')
  | array {w w' x} : Blanks w → Blanks w' → NoSpace x → x.head? ≠ some closeBracket →
      BreaksOff .elements (w' ++ x) → BreaksOff .value (w ++ openBracket :: (w' ++ x))
  | object {w x} : Blanks w → BreaksOff .members x → BreaksOff .value (w ++ openBrace :: x)
  | element {x} : BreaksOff .value x → BreaksOff .elements x
  | afterElement {v r w} : Text Reads (.value v) r → Blanks w → BreaksOff .elements (r ++ w)
  | elements {v r w x} : Text Reads (.value v) r → Blanks w → BreaksOff .elements x →
      BreaksOff .elements (r ++ (w ++ comma :: x))
  | member {key k x} : KeyText key k → BreaksOff .value x → BreaksOff .members (k ++ x)
  | members {key k v r w x} : KeyText key k → Text Reads (.value v) r → Blanks w → BreaksOff .members x →
      BreaksOff .members (k ++ (r ++ (w ++ comma :: x)))

/-- After a number there is no digit. -/
def Ends : Value → List UInt8 → Prop
  | .number _, l => NoDigit l
  | _, _ => True

end Json
end WingOS
