/-!
# Escaped bytes

Bytes shown as printable ASCII. Tab, carriage return, newline, both quotes and the backslash get a
backslash and a letter or themselves, other bytes outside the printable range two hexadecimal
digits after `\x`.
-/

namespace IndexMerge

/-- A number below sixteen as a lowercase hexadecimal digit. -/
def hexDigit (n : Nat) : Char :=
  if n < 10 then Char.ofNat (48 + n) else Char.ofNat (87 + n)

/-- A number in lowercase hexadecimal after `0x`, without leading zeros. -/
def hexLiteral (n : Nat) : String :=
  "0x" ++ String.ofList (Nat.toDigits 16 n)

/-- How one byte is shown. -/
def escapeByte (b : UInt8) : List Char :=
  if b = 9 then ['\\', 't']
  else if b = 10 then ['\\', 'n']
  else if b = 13 then ['\\', 'r']
  else if b = 34 ∨ b = 39 ∨ b = 92 then ['\\', Char.ofNat b.toNat]
  else if 32 ≤ b ∧ b ≤ 126 then [Char.ofNat b.toNat]
  else ['\\', 'x', hexDigit (b.toNat / 16), hexDigit (b.toNat % 16)]

/-- Bytes as printable ASCII text. -/
def escapeBytes (bytes : List UInt8) : String :=
  String.ofList (bytes.flatMap escapeByte)

end IndexMerge
