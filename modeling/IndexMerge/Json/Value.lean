import IndexMerge.Text.Escape

/-!
# JSON values

A value as its text gives it: numbers keep their literals, the fields of an object keep their
order and may repeat. A string literal that has half of a surrogate pair stands for no text; it is
a value all the same.
-/

namespace IndexMerge

/-- A JSON value. -/
inductive Json where
  | null
  | bool (value : Bool)
  | number (literal : String)
  | string (text : Option String)
  | array (items : List Json)
  | object (fields : List (Option String × Json))
  deriving Repr, Inhabited

namespace Json

/-- A natural number. -/
def ofNat (n : Nat) : Json := number (toString n)

/-- A string with a text. -/
def ofString (text : String) : Json := string (some text)

/-- An array of numbers. -/
def ofWords (words : List UInt32) : Json := array (words.map fun w => ofNat w.toNat)

/-- An object with named fields. -/
def ofFields (fields : List (String × Json)) : Json :=
  object (fields.map fun (name, value) => (some name, value))

/-- How a character is written in a string. -/
def escapeChar (c : Char) : List Char :=
  if c = '"' then ['\\', '"']
  else if c = '\\' then ['\\', '\\']
  else if c.toNat = 8 then ['\\', 'b']
  else if c.toNat = 12 then ['\\', 'f']
  else if c.toNat = 10 then ['\\', 'n']
  else if c.toNat = 13 then ['\\', 'r']
  else if c.toNat = 9 then ['\\', 't']
  else if c.toNat < 32 then
    ['\\', 'u', '0', '0', hexDigit (c.toNat / 16), hexDigit (c.toNat % 16)]
  else [c]

/-- A string literal. A string without text is written like an empty one. -/
def quote (text : Option String) : String :=
  String.ofList ('"' :: (text.getD "").toList.flatMap escapeChar ++ ['"'])

/-- Pieces of text between two brackets: on one line, or each on its own line at an indentation
that is deeper than that of the brackets. -/
def enclose (opening closing : String) (indent : Option Nat) (pieces : List String) : String :=
  if pieces.isEmpty then opening ++ closing
  else match indent with
    | none => opening ++ String.intercalate "," pieces ++ closing
    | some depth =>
      let outer := "\n" ++ String.ofList (List.replicate (2 * depth) ' ')
      let inner := outer ++ "  "
      opening ++ inner ++ String.intercalate ("," ++ inner) pieces ++ outer ++ closing

/-- The text of a value, on one line, or with line breaks from an indentation on. -/
def render (indent : Option Nat) : Json → String
  | null => "null"
  | bool value => if value then "true" else "false"
  | number literal => literal
  | string text => quote text
  | array items => enclose "[" "]" indent (renderItems (indent.map (· + 1)) items)
  | object fields => enclose "\x7b" "\x7d" indent (renderFields (indent.map (· + 1)) fields)
where
  renderItems (indent : Option Nat) : List Json → List String
    | [] => []
    | item :: items => render indent item :: renderItems indent items
  renderFields (indent : Option Nat) : List (Option String × Json) → List String
    | [] => []
    | (name, value) :: fields =>
      let colon := if indent.isSome then ": " else ":"
      (quote name ++ colon ++ render indent value) :: renderFields indent fields

/-- The text of a value on one line. -/
def compact (value : Json) : String := render none value

/-- The text of a value with line breaks. -/
def pretty (value : Json) : String := render (some 0) value

end Json

end IndexMerge
