/-!
# Reading bytes as UTF-8

Well-formed sequences become their characters. Of what is not well-formed, each longest beginning
of a well-formed sequence, and each byte that begins none, becomes one replacement character.
-/

namespace IndexMerge.Utf8

/-- The character that stands for what could not be read. -/
def replacement : Char := Char.ofNat 0xFFFD

/-- A sequence that has begun: the value read so far, the number of bytes missing and the range
that the next one has to lie in. -/
structure Begun where
  value : Nat
  missing : Nat
  low : UInt8
  high : UInt8

/-- What a first byte begins. The ranges of the second byte leave out overlong forms, surrogates
and values beyond the last character. -/
def begin? (b : UInt8) : Option Begun :=
  if 0xC2 ≤ b ∧ b ≤ 0xDF then some ⟨b.toNat - 0xC0, 1, 0x80, 0xBF⟩
  else if b = 0xE0 then some ⟨0, 2, 0xA0, 0xBF⟩
  else if b = 0xED then some ⟨13, 2, 0x80, 0x9F⟩
  else if 0xE1 ≤ b ∧ b ≤ 0xEF then some ⟨b.toNat - 0xE0, 2, 0x80, 0xBF⟩
  else if b = 0xF0 then some ⟨0, 3, 0x90, 0xBF⟩
  else if 0xF1 ≤ b ∧ b ≤ 0xF3 then some ⟨b.toNat - 0xF0, 3, 0x80, 0xBF⟩
  else if b = 0xF4 then some ⟨4, 3, 0x80, 0x8F⟩
  else none

/-- The text read so far, whether all of it was well-formed, and the sequence that has begun. -/
structure Reading where
  text : String
  wellFormed : Bool
  begun : Option Begun

namespace Reading

/-- Before the first byte. -/
def start : Reading := ⟨"", true, none⟩

/-- Puts a replacement character. -/
def replace (r : Reading) : Reading :=
  { r with text := r.text.push replacement, wellFormed := false, begun := none }

/-- Reads a byte that no sequence waits for. -/
def first (r : Reading) (b : UInt8) : Reading :=
  if b < 0x80 then { r with text := r.text.push (Char.ofNat b.toNat) }
  else match begin? b with
    | some begun => { r with begun := some begun }
    | none => r.replace

/-- Reads a byte. -/
def next (r : Reading) (b : UInt8) : Reading :=
  match r.begun with
  | none => r.first b
  | some s =>
    if s.low ≤ b ∧ b ≤ s.high then
      let value := s.value * 64 + (b.toNat - 0x80)
      if s.missing ≤ 1 then { r with text := r.text.push (Char.ofNat value), begun := none }
      else { r with begun := some ⟨value, s.missing - 1, 0x80, 0xBF⟩ }
    else r.replace.first b

/-- After the last byte: a sequence that was left unfinished is replaced. -/
def finish (r : Reading) : Reading :=
  if r.begun.isSome then r.replace else r

end Reading

/-- Reads all bytes. -/
def read (bytes : List UInt8) : Reading :=
  (bytes.foldl Reading.next Reading.start).finish

/-- The text of the bytes, with replacement characters. -/
def lossy (bytes : List UInt8) : String := (read bytes).text

/-- The text of the bytes if all of them are well-formed. -/
def decode? (bytes : List UInt8) : Option String :=
  let r := read bytes
  if r.wellFormed then some r.text else none

end IndexMerge.Utf8
