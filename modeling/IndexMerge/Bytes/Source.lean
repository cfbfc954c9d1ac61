import IndexMerge.Attempt
import IndexMerge.Error
import IndexMerge.Bytes.Word

/-!
# Byte sources

What a reader of a stored format consumes: the bytes that are left, and what is reported when they
are used up. How the bytes are fetched is not part of it, so no buffer shows in any result.
-/

namespace IndexMerge

/-- The bytes still to be read. Behind them comes the end, or a device that fails. -/
structure ByteSource where
  bytes : List UInt8
  fault : Option IoFault
  deriving DecidableEq, Repr, Inhabited

/-- A step of reading a stored format. -/
abbrev Decode (α : Type) : Type := Attempt Error ByteSource α

namespace ByteSource

/-- Bytes with an ordinary end. -/
def ofList (bytes : List UInt8) : ByteSource := ⟨bytes, none⟩

/-- Bytes of which a device delivers `count` before it fails at every further read. -/
def losing (bytes : List UInt8) (count : Nat) : ByteSource :=
  if bytes.length < count then ofList bytes else ⟨bytes.take count, some .deviceLost⟩

/-- What a read past the last byte reports. -/
def exhausted (s : ByteSource) : IoFault := s.fault.getD .shortRead

/-- The next `count` bytes. If there are fewer, the read fails and they are gone. -/
def take (count : Nat) : Attempt IoFault ByteSource (List UInt8) := fun s =>
  let taken := s.bytes.take count
  if taken.length < count then (.error s.exhausted, { s with bytes := [] })
  else (.ok taken, { s with bytes := s.bytes.drop count })

/-- Passes over `count` bytes and says how many there were; only a failing device is an error. -/
def skip (count : Nat) : Attempt IoFault ByteSource Nat := fun s =>
  let skipped := (s.bytes.take count).length
  let rest := { s with bytes := s.bytes.drop count }
  match s.fault with
  | some fault => if skipped < count then (.error fault, rest) else (.ok skipped, rest)
  | none => (.ok skipped, rest)

end ByteSource

namespace Decode

/-- The next `count` bytes. -/
def bytes (count : Nat) : Decode (List UInt8) := (ByteSource.take count).rename (Error.io "")

/-- The number in the next `count` bytes. -/
def word (count : Nat) : Decode Nat := ofLittleEndian <$> bytes count

/-- One byte. -/
def u8 : Decode UInt8 := UInt8.ofNat <$> word 1

/-- Two bytes. -/
def u16 : Decode UInt16 := UInt16.ofNat <$> word 2

/-- Four bytes. -/
def u32 : Decode UInt32 := UInt32.ofNat <$> word 4

/-- Eight bytes. -/
def u64 : Decode UInt64 := UInt64.ofNat <$> word 8

/-- Refuses what was read unless a condition holds. -/
def require (condition : Bool) (cause : BadFormat) : Decode Unit :=
  if condition then pure () else throw (.format cause)

end Decode

end IndexMerge
