import IndexMerge.Json.Token

/-!
# Reading JSON

Puts the tokens of a text together. The arrays and objects that have begun are kept as a row, the
innermost first, so no text is nested too deeply.
-/

namespace IndexMerge.Json

/-- An array or object that has begun, with its members so far, the last one first. The name of an
object's next field is kept from its key on. -/
inductive Opened where
  | array (items : List Json)
  | object (fields : List (Option String × Json)) (name : Option String)
  deriving Repr, Inhabited

/-- What may come next. -/
inductive Expected where
  | value
  | firstItem
  | firstKey
  | key
  | colon
  | separator
  | nothing
  deriving DecidableEq, Repr, Inhabited

/-- What was read so far. -/
structure Building where
  opened : List Opened
  expected : Expected
  /-- The whole, once it is complete. -/
  result : Option Json
  deriving Repr, Inhabited

namespace Building

/-- Before the first token. -/
def start : Building := ⟨[], .value, none⟩

/-- Adds a complete value to what it is part of. -/
def add (value : Json) : List Opened → Building
  | [] => ⟨[], .nothing, some value⟩
  | .array items :: outer => ⟨.array (value :: items) :: outer, .separator, none⟩
  | .object fields name :: outer =>
    ⟨.object ((name, value) :: fields) none :: outer, .separator, none⟩

/-- Closes the innermost array or object. -/
def close (c : Char) : List Opened → Option Building
  | .array items :: outer => if c = ']' then some (add (.array items.reverse) outer) else none
  | .object fields _ :: outer =>
    if c = '\x7d' then some (add (.object fields.reverse) outer) else none
  | [] => none

/-- Reads a value or what opens one. -/
def value (b : Building) : Token → Option Building
  | .scalar v => some (add v b.opened)
  | .mark c =>
    if c = '[' then some ⟨.array [] :: b.opened, .firstItem, none⟩
    else if c = '\x7b' then some ⟨.object [] none :: b.opened, .firstKey, none⟩
    else none

/-- Reads the key of a field. -/
def key (b : Building) (token : Token) : Option Building :=
  match token, b.opened with
  | .scalar (.string name), .object fields _ :: outer =>
    some ⟨.object fields name :: outer, .colon, none⟩
  | _, _ => none

/-- What follows a comma in the innermost array or object. -/
def afterComma : List Opened → Option Expected
  | .array _ :: _ => some .value
  | .object .. :: _ => some .key
  | [] => none

/-- Reads a token. -/
def next (b : Building) (token : Token) : Option Building :=
  match b.expected, token with
  | .value, token => b.value token
  | .firstItem, .mark ']' => close ']' b.opened
  | .firstItem, token => b.value token
  | .firstKey, .mark '\x7d' => close '\x7d' b.opened
  | .firstKey, token => b.key token
  | .key, token => b.key token
  | .colon, .mark ':' => some { b with expected := .value }
  | .separator, .mark ',' => (afterComma b.opened).map fun expected => { b with expected }
  | .separator, .mark c => close c b.opened
  | _, _ => none

end Building

/-- The value that a text gives, if it is a JSON document. -/
def read? (text : String) : Option Json := do
  let b ← (← tokens? text).foldlM Building.next Building.start
  b.result

end IndexMerge.Json
