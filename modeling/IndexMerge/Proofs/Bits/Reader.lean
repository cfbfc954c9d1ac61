import IndexMerge.Bits.Reader
import IndexMerge.Proofs.Bits.Code
import IndexMerge.Proofs.Reads

/-!
# What a bit reader reads

The bits ahead of a reader are those of its bytes from its place on, and a step reads a code if it
takes just the code from there. A gamma code of at most 64 bits is read as its number
(`reads_readGamma`).
-/

namespace IndexMerge.BitReader

open Attempt

/-- The bits not read yet. -/
def ahead (r : BitReader) : List Bool := (bytesBits r.data.toList).drop r.offset

/-- The reader behind some more bits. -/
def skip (r : BitReader) (count : Nat) : BitReader := { r with offset := r.offset + count }

@[simp] theorem skip_skip (r : BitReader) (a b : Nat) : (r.skip a).skip b = r.skip (a + b) := by
  rw [skip, skip, skip, Nat.add_assoc]

theorem ahead_skip {r : BitReader} {bits rest : List Bool} (h : ahead r = bits ++ rest) :
    ahead (r.skip bits.length) = rest := by
  rw [ahead, skip, ← List.drop_drop]
  show (ahead r).drop bits.length = rest
  rw [h, List.drop_left]

/-- A reader is placed behind any number of bits that there are. -/
theorem at?_ofBits {data : Array UInt8} {bits : Nat} (inside : bits ≤ 8 * data.size) :
    at? data (.ofBits bits) = .ok ⟨data, bits⟩ := by
  unfold at?
  rw [if_neg (by simp only [BitPosition.ofBits]; omega),
    if_neg (by simp only [BitPosition.ofBits]; omega), BitPosition.toBits_ofBits]

instance : Readable BitReader Bool where
  Takes bits r r' := (∃ rest, ahead r = bits ++ rest) ∧ r' = r.skip bits.length
  takes_nil := by
    intro r r' taken
    exact taken.2
  takes_append := by
    rintro a b r r' ⟨⟨rest, h⟩, rfl⟩
    rw [List.append_assoc] at h
    refine ⟨r.skip a.length, ⟨⟨_, h⟩, rfl⟩, ⟨rest, ahead_skip h⟩, ?_⟩
    rw [skip_skip, List.length_append]

theorem reads_readBit (bit : Bool) : Reads readBit [bit] bit := by
  rintro r r' ⟨⟨rest, h⟩, rfl⟩
  have first : (bytesBits r.data.toList)[r.offset]? = some bit := by
    have head := congrArg (·[0]?) h
    simpa [ahead] using head
  rw [getElem?_bytesBits, Option.map_eq_some_iff] at first
  obtain ⟨b, found, same⟩ := first
  rw [Array.getElem?_toList] at found
  obtain ⟨inside, rfl⟩ := Array.getElem?_eq_some_iff.mp found
  rw [readBit, dif_pos inside, same]
  rfl

theorem reads_readOnto (bits : List Bool) (value : Nat) :
    Reads (readOnto bits.length value) bits (bits.foldl withBit value) := by
  induction bits generalizing value with
  | nil =>
    intro r r' taken
    rw [Readable.takes_nil taken]
    rfl
  | cons bit bits ih =>
    intro r r' taken
    obtain ⟨next, front, behind⟩ := Readable.takes_append (a := [bit]) taken
    rw [List.length_cons, readOnto, reads_readBit bit r next front]
    exact ih (withBit value bit) next r' behind

theorem reads_readBits {count : Nat} (few : count ≤ 64) (value : Nat) :
    Reads (readBits count) (fixedCode count value) (value % 2 ^ count) := by
  have bits := reads_readOnto (fixedCode count value) 0
  rw [length_fixedCode, foldl_fixedCode, Nat.zero_mul, Nat.zero_add] at bits
  unfold readBits
  rw [if_pos few]
  exact bits

theorem reads_countZeros (zeros value : Nat) :
    Reads (countZeros value) (List.replicate zeros false ++ [true]) (value + zeros) := by
  induction zeros generalizing value with
  | zero =>
    intro r r' taken
    unfold countZeros
    split <;> rename_i asked <;> rw [reads_readBit true r r' taken] at asked <;> cases asked
    rfl
  | succ zeros ih =>
    intro r r' taken
    rw [List.replicate_succ] at taken
    obtain ⟨next, front, behind⟩ := Readable.takes_append (a := [false]) taken
    unfold countZeros
    split <;> rename_i asked <;> rw [reads_readBit false r next front] at asked <;> cases asked
    rw [ih (value + 1) next r' behind, Nat.add_right_comm, Nat.add_assoc]

theorem reads_readUnary {value : Nat} (positive : value ≠ 0) :
    Reads readUnary (unaryCode value) value := by
  have counted := reads_countZeros (value - 1) 1
  rwa [Nat.add_sub_cancel' (Nat.one_le_iff_ne_zero.mpr positive)] at counted

/-- A gamma code is read as its number. -/
theorem reads_readGamma {value : Nat} (positive : value ≠ 0) (short : value < 2 ^ 64) :
    Reads readGamma (gammaCode value) value := by
  have log := (Nat.log2_lt positive).mpr short
  have length := reads_readUnary (Nat.succ_ne_zero value.log2)
  have bits := reads_readOnto (fixedCode value.log2 value) 1
  rw [length_fixedCode, foldl_fixedCode] at bits
  have whole : 1 * 2 ^ value.log2 + value % 2 ^ value.log2 = value := by
    have low := Nat.log2_self_le positive
    have high := Nat.lt_log2_self (n := value)
    rw [Nat.pow_succ] at high
    rw [Nat.one_mul, Nat.mod_eq_sub_mod low, Nat.mod_eq_of_lt (by omega)]
    omega
  rw [whole] at bits
  unfold readGamma gammaCode
  refine length.bind ?_
  rw [if_neg (by omega)]
  exact bits

end IndexMerge.BitReader
