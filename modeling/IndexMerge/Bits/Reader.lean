import IndexMerge.Attempt
import IndexMerge.Error
import IndexMerge.Bits.Position

/-!
# Reading bits

A reader stands before a bit of a byte string. A read that fails leaves it where the fault was
found, so reading can go on from there.
-/

namespace IndexMerge

/-- A reader of bits: the bytes, and the number of bits before the next one. -/
structure BitReader where
  data : Array UInt8
  offset : Nat
  deriving DecidableEq, Repr, Inhabited

namespace BitReader

/-- A reader before the first bit. -/
def start (data : Array UInt8) : BitReader := ⟨data, 0⟩

/-- A reader at a place in the bytes or at their end. -/
def at? (data : Array UInt8) (start : BitPosition) : Except Error BitReader :=
  if 8 ≤ start.bit then .error (.argument .startBit)
  else if data.size < start.byte then .error (.argument .startByte)
  else .ok ⟨data, start.toBits⟩

/-- The place of the next bit. -/
def position (r : BitReader) : BitPosition := BitPosition.ofBits r.offset

/-- The number of bits not read yet. -/
def left (r : BitReader) : Nat := r.data.size * 8 - r.offset

/-- Reads a bit. -/
def readBit : Attempt Error BitReader Bool := fun r =>
  if h : r.offset / 8 < r.data.size then
    (.ok (r.data[r.offset / 8].toNat.testBit (7 - r.offset % 8)), { r with offset := r.offset + 1 })
  else (.error (.format (.endOfBits (r.offset / 8))), r)

theorem left_readBit {r r' : BitReader} {bit : Bool} (h : readBit r = (.ok bit, r')) :
    r'.left < r.left := by
  unfold readBit at h
  split at h
  · cases h
    simp only [left]
    omega
  · cases h

/-- Reads `count` bits behind those of `value`. -/
def readOnto : Nat → Nat → Attempt Error BitReader Nat
  | 0, value, r => (.ok value, r)
  | count + 1, value, r =>
    match readBit r with
    | (.ok bit, r) => readOnto count (2 * value + bit.toNat) r
    | (.error e, r) => (.error e, r)

/-- Reads a number of `count` bits, at most 64. -/
def readBits (count : Nat) : Attempt Error BitReader Nat :=
  if count ≤ 64 then readOnto count 0 else throw (.argument .bitCount)

/-- Counts on from `value` up to the next one bit. -/
def countZeros (value : Nat) : Attempt Error BitReader Nat := fun r =>
  match _h : readBit r with
  | (.ok true, r) => (.ok value, r)
  | (.ok false, r) => countZeros (value + 1) r
  | (.error e, r) => (.error e, r)
termination_by r => r.left
decreasing_by exact left_readBit _h

/-- Reads a unary code. -/
def readUnary : Attempt Error BitReader Nat := countZeros 1

/-- Reads a gamma code of at most 64 significant bits. -/
def readGamma : Attempt Error BitReader Nat := do
  let length ← readUnary
  if 64 < length then throw (.format (.longGamma length))
  readOnto (length - 1) 1

end BitReader

end IndexMerge
