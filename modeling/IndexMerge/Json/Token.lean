import IndexMerge.Json.Value

/-!
# JSON tokens

The text of a JSON document is cut into marks and scalar values. Words and numbers reach as far as
their characters do and are checked as a whole.
-/

namespace IndexMerge.Json

/-- A bracket, comma or colon, or a value that is not put together from others. -/
inductive Token where
  | mark (c : Char)
  | scalar (value : Json)
  deriving Repr, Inhabited

/-- Whether a character may stand between tokens. -/
def isBlank (c : Char) : Bool := c == ' ' || c == '\n' || c == '\t' || c == '\r'

/-- Whether a character is a mark. -/
def isMark (c : Char) : Bool :=
  c == '[' || c == ']' || c == '\x7b' || c == '\x7d' || c == ',' || c == ':'

/-- Whether a character can belong to a number. -/
def isNumeric (c : Char) : Bool :=
  c.isDigit || c == '-' || c == '+' || c == '.' || c == 'e' || c == 'E'

/-- Whether characters are an exponent with its letter, or nothing. -/
def isExponent : List Char → Bool
  | [] => true
  | c :: rest =>
    let digits := match rest with
      | '+' :: digits => digits
      | '-' :: digits => digits
      | digits => digits
    (c == 'e' || c == 'E') && !digits.isEmpty && digits.all Char.isDigit

/-- Whether characters are what can follow the integer part of a number. -/
def isFraction : List Char → Bool
  | '.' :: rest => rest.head?.any Char.isDigit && isExponent (rest.dropWhile Char.isDigit)
  | rest => isExponent rest

/-- Whether characters are a number: no zero before other digits, digits behind a point. -/
def isNumber (cs : List Char) : Bool :=
  match (match cs with
    | '-' :: rest => rest
    | rest => rest) with
  | '0' :: rest => isFraction rest
  | c :: rest => c.isDigit && isFraction (rest.dropWhile Char.isDigit)
  | [] => false

/-- A string literal up to some character. -/
structure PartialString where
  text : String
  /-- The first half of a surrogate pair, if it was read last. -/
  half : Option Nat
  /-- Whether no half of a pair was left alone. -/
  isText : Bool
  deriving Repr, Inhabited

namespace PartialString

/-- A literal of which nothing was read. -/
def empty : PartialString := ⟨"", none, true⟩

/-- Reads a character. -/
def push (s : PartialString) (c : Char) : PartialString :=
  ⟨s.text.push c, none, s.isText && s.half.isNone⟩

/-- Reads a unit of sixteen bits. Two halves of a pair make a character. -/
def pushUnit (s : PartialString) (unit : Nat) : PartialString :=
  if 0xDC00 ≤ unit ∧ unit ≤ 0xDFFF then
    match s.half with
    | some half =>
      ⟨s.text.push (Char.ofNat (0x10000 + (half - 0xD800) * 0x400 + (unit - 0xDC00))), none,
        s.isText⟩
    | none => { s with isText := false }
  else if 0xD800 ≤ unit ∧ unit ≤ 0xDBFF then
    ⟨s.text, some unit, s.isText && s.half.isNone⟩
  else s.push (Char.ofNat unit)

/-- The literal as a value. -/
def value (s : PartialString) : Json :=
  if s.isText && s.half.isNone then string (some s.text) else string none

end PartialString

/-- What the character before belongs to. -/
inductive Within where
  | nothing
  | word (text : String)
  | numeral (text : String)
  | literal (s : PartialString)
  | escape (s : PartialString)
  | unit (s : PartialString) (digits value : Nat)
  deriving Repr, Inhabited

/-- The tokens read so far, and what has begun. -/
structure Lexing where
  tokens : Array Token
  within : Within
  deriving Repr, Inhabited

/-- The value of a hexadecimal digit. -/
def hexValue? (c : Char) : Option Nat :=
  if '0' ≤ c ∧ c ≤ '9' then some (c.toNat - 48)
  else if 'a' ≤ c ∧ c ≤ 'f' then some (c.toNat - 87)
  else if 'A' ≤ c ∧ c ≤ 'F' then some (c.toNat - 55)
  else none

/-- The character that an escape of two characters stands for. -/
def unescape? (c : Char) : Option Char :=
  if c = '"' ∨ c = '\\' ∨ c = '/' then some c
  else if c = 'b' then some (Char.ofNat 8)
  else if c = 'f' then some (Char.ofNat 12)
  else if c = 'n' then some '\n'
  else if c = 'r' then some '\r'
  else if c = 't' then some '\t'
  else none

namespace Lexing

/-- Adds a token. -/
def push (s : Lexing) (token : Token) : Lexing := ⟨s.tokens.push token, .nothing⟩

/-- Ends a word or a number; nothing else ends without a character of its own. -/
def finish (s : Lexing) : Option Lexing :=
  match s.within with
  | .nothing => some s
  | .word "true" => some (s.push (.scalar (.bool true)))
  | .word "false" => some (s.push (.scalar (.bool false)))
  | .word "null" => some (s.push (.scalar .null))
  | .numeral text => if isNumber text.toList then some (s.push (.scalar (.number text))) else none
  | _ => none

/-- Reads a character that no token waits for. -/
def first (s : Lexing) (c : Char) : Option Lexing :=
  if isBlank c then some s
  else if isMark c then some (s.push (.mark c))
  else if c = '"' then some { s with within := .literal .empty }
  else if c.isDigit || c = '-' then some { s with within := .numeral (String.singleton c) }
  else if c.isAlpha then some { s with within := .word (String.singleton c) }
  else none

/-- Reads a character. -/
def next (s : Lexing) (c : Char) : Option Lexing :=
  match s.within with
  | .nothing => s.first c
  | .word text =>
    if c.isAlpha then some { s with within := .word (text.push c) }
    else s.finish >>= (first · c)
  | .numeral text =>
    if isNumeric c then some { s with within := .numeral (text.push c) }
    else s.finish >>= (first · c)
  | .literal text =>
    if c = '"' then some (s.push (.scalar text.value))
    else if c = '\\' then some { s with within := .escape text }
    else if c.toNat < 32 then none
    else some { s with within := .literal (text.push c) }
  | .escape text =>
    if c = 'u' then some { s with within := .unit text 0 0 }
    else (unescape? c).map fun c => { s with within := .literal (text.push c) }
  | .unit text digits value =>
    (hexValue? c).map fun digit =>
      let value := 16 * value + digit
      if digits = 3 then { s with within := .literal (text.pushUnit value) }
      else { s with within := .unit text (digits + 1) value }

end Lexing

/-- The tokens of a text, if it can be cut into tokens. -/
def tokens? (text : String) : Option (List Token) := do
  let s ← text.toList.foldlM Lexing.next ⟨#[], .nothing⟩
  return (← s.finish).tokens.toList

end IndexMerge.Json
