/-!
# Bit codes

The codes of a posting list as lists of bits, most significant bit first: a number in a fixed
count of bits, the unary code (a run of zeros ended by a one), the gamma code (the unary code of
the number's length, then the number without its leading one), and the packing into bytes.
-/

namespace IndexMerge

/-- The `count` low bits of a number. -/
def fixedCode : Nat → Nat → List Bool
  | 0, _ => []
  | count + 1, value => value.testBit count :: fixedCode count value

/-- A number from one on as that many bits, of which only the last is a one. -/
def unaryCode (value : Nat) : List Bool := List.replicate (value - 1) false ++ [true]

/-- A number from one on by its length and its bits below the leading one. -/
def gammaCode (value : Nat) : List Bool :=
  unaryCode (value.log2 + 1) ++ fixedCode value.log2 value

/-- The number that bits stand for. -/
def ofBits (bits : List Bool) : Nat :=
  bits.foldl (fun value bit => 2 * value + bit.toNat) 0

/-- Up to eight bits as a byte, filled with zeros. -/
def packByte (bits : List Bool) : UInt8 :=
  UInt8.ofNat (ofBits (bits ++ List.replicate (8 - bits.length) false))

/-- The bits of a byte. -/
def byteBits (b : UInt8) : List Bool := fixedCode 8 b.toNat

/-- The bits of a byte string. -/
def bytesBits (bytes : List UInt8) : List Bool := bytes.flatMap byteBits

theorem length_fixedCode (count value : Nat) : (fixedCode count value).length = count := by
  induction count with
  | zero => rfl
  | succ count ih => simp [fixedCode, ih]

theorem length_unaryCode {value : Nat} (h : value ≠ 0) : (unaryCode value).length = value := by
  simp only [unaryCode, List.length_append, List.length_replicate, List.length_cons,
    List.length_nil]
  omega

theorem length_gammaCode (value : Nat) : (gammaCode value).length = 2 * value.log2 + 1 := by
  simp only [gammaCode, List.length_append, length_fixedCode,
    length_unaryCode (Nat.succ_ne_zero _)]
  omega

end IndexMerge
