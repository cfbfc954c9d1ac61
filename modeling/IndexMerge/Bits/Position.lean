/-!
# Positions in a bit stream

A place between two bits: a byte offset and the number of bits before it in that byte, counted
from the most significant one. Posting lists are addressed by such places.
-/

namespace IndexMerge

/-- A place in a bit stream. -/
structure BitPosition where
  byte : Nat
  bit : Nat
  deriving DecidableEq, Repr, Inhabited

namespace BitPosition

/-- The place after `bits` bits. -/
def ofBits (bits : Nat) : BitPosition := ⟨bits / 8, bits % 8⟩

/-- The number of bits before a place. -/
def toBits (p : BitPosition) : Nat := p.byte * 8 + p.bit

/-- A place given by its parts, if the bit offset lies in a byte. -/
def ofParts? (byte bit : Nat) : Option BitPosition :=
  if bit < 8 then some ⟨byte, bit⟩ else none

/-- What is said of a bit offset that lies outside a byte. -/
def outOfRange (bit : Nat) : String := s!"bit offset {bit} out of range"

/-- Byte offset first. -/
def compare (a b : BitPosition) : Ordering :=
  (Ord.compare a.byte b.byte).then (Ord.compare a.bit b.bit)

/-- The byte offset, `@`, and the bit offset. -/
def display (p : BitPosition) : String := s!"{p.byte}@{p.bit}"

instance : ToString BitPosition := ⟨display⟩

theorem toBits_ofBits (bits : Nat) : (ofBits bits).toBits = bits := by
  simp only [ofBits, toBits]; omega

end BitPosition

end IndexMerge
