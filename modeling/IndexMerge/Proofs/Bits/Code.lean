import IndexMerge.Bits.Code
import IndexMerge.Bits.Position
import Mathlib.Algebra.Group.Nat.Defs

/-!
# Bits and the numbers that they stand for

A number in a fixed count of bits and the bits of a number are inverse to one another
(`fixedCode_foldl`, `foldl_fixedCode`), so packing bits into a byte loses none of them
(`byteBits_packByte`), and bytes with the same bits are the same (`bytesBits_inj`).
-/

namespace IndexMerge

/-- A number with a bit behind its other bits. -/
abbrev withBit (value : Nat) (bit : Bool) : Nat := 2 * value + bit.toNat

theorem foldl_withBit (bits : List Bool) (value : Nat) :
    bits.foldl withBit value = value * 2 ^ bits.length + ofBits bits := by
  have step : ∀ (bits : List Bool) (value : Nat),
      bits.foldl withBit value = value * 2 ^ bits.length + bits.foldl withBit 0 := by
    intro bits
    induction bits with
    | nil => intro value; simp
    | cons bit bits ih =>
      intro value
      rw [List.foldl_cons, List.foldl_cons, ih, ih (withBit 0 bit), List.length_cons, Nat.pow_succ]
      simp only [withBit, Nat.add_mul, Nat.mul_zero, Nat.zero_add]
      rw [Nat.mul_comm 2 value, Nat.mul_assoc, Nat.mul_comm 2, Nat.add_assoc]
  exact step bits value

theorem ofBits_lt (bits : List Bool) : ofBits bits < 2 ^ bits.length := by
  induction bits with
  | nil => decide
  | cons bit bits ih =>
    have split := foldl_withBit bits (withBit 0 bit)
    have first : withBit 0 bit ≤ 1 := by cases bit <;> decide
    have bound := Nat.mul_le_mul_right (2 ^ bits.length) first
    show bits.foldl withBit (withBit 0 bit) < _
    rw [split, List.length_cons, Nat.pow_succ]
    omega

/-- Reading back the bits of a number behind others gives the bits. -/
theorem fixedCode_foldl (bits : List Bool) (value : Nat) :
    fixedCode bits.length (bits.foldl withBit value) = bits := by
  induction bits generalizing value with
  | nil => rfl
  | cons bit bits ih =>
    rw [List.length_cons, List.foldl_cons, fixedCode, ih]
    congr 1
    rw [foldl_withBit, Nat.testBit_eq_decide_div_mod_eq, Nat.mul_comm,
      Nat.mul_add_div (Nat.two_pow_pos _), Nat.div_eq_of_lt (ofBits_lt bits)]
    cases bit with
    | false => exact decide_eq_false (by simp only [withBit, Bool.toNat_false]; omega)
    | true => exact decide_eq_true (by simp only [withBit, Bool.toNat_true]; omega)

/-- The bits of a number behind another number add its low part. -/
theorem foldl_fixedCode (count number value : Nat) :
    (fixedCode count number).foldl withBit value = value * 2 ^ count + number % 2 ^ count := by
  induction count generalizing value with
  | zero => simp [fixedCode, Nat.mod_one]
  | succ count ih =>
    rw [fixedCode, List.foldl_cons, ih]
    have split : number % 2 ^ (count + 1) =
        (number.testBit count).toNat * 2 ^ count + number % 2 ^ count := by
      rw [Nat.mod_pow_succ, Nat.testBit_eq_decide_div_mod_eq, Nat.add_comm, Nat.mul_comm]
      congr 2
      rcases Nat.mod_two_eq_zero_or_one (number / 2 ^ count) with even | odd
      · simp [even]
      · simp [odd]
    rw [split, Nat.pow_succ]
    simp only [withBit, Nat.add_mul]
    rw [Nat.mul_comm 2 value, Nat.mul_assoc, Nat.mul_comm 2, Nat.add_assoc]

/-- Zeros are the bits of zero. -/
theorem fixedCode_zero (count : Nat) : fixedCode count 0 = List.replicate count false := by
  induction count with
  | zero => rfl
  | succ count ih => rw [fixedCode, ih, Nat.zero_testBit, List.replicate_succ]

/-- Up to eight bits come back from their byte, filled with zeros. -/
theorem byteBits_packByte {bits : List Bool} (short : bits.length ≤ 8) :
    byteBits (packByte bits) = bits ++ List.replicate (8 - bits.length) false := by
  have length : (bits ++ List.replicate (8 - bits.length) false).length = 8 := by
    simp only [List.length_append, List.length_replicate]
    omega
  have bound := ofBits_lt (bits ++ List.replicate (8 - bits.length) false)
  have back := fixedCode_foldl (bits ++ List.replicate (8 - bits.length) false) 0
  rw [length] at bound back
  rw [byteBits, packByte, UInt8.toNat_ofNat_of_lt' bound]
  exact back

@[simp] theorem length_byteBits (b : UInt8) : (byteBits b).length = 8 := length_fixedCode 8 _

@[simp] theorem bytesBits_nil : bytesBits [] = [] := rfl

@[simp] theorem bytesBits_cons (b : UInt8) (bytes : List UInt8) :
    bytesBits (b :: bytes) = byteBits b ++ bytesBits bytes := List.flatMap_cons ..

@[simp] theorem bytesBits_append (a b : List UInt8) :
    bytesBits (a ++ b) = bytesBits a ++ bytesBits b := List.flatMap_append ..

theorem length_bytesBits (bytes : List UInt8) : (bytesBits bytes).length = 8 * bytes.length := by
  induction bytes with
  | nil => rfl
  | cons b bytes ih =>
    rw [bytesBits_cons, List.length_append, length_byteBits, ih, List.length_cons]
    omega

/-- A byte is packed again from its bits. -/
theorem packByte_byteBits (b : UInt8) : packByte (byteBits b) = b := by
  have bits : ofBits (byteBits b) = b.toNat := by
    have value := foldl_fixedCode 8 b.toNat 0
    rw [Nat.zero_mul, Nat.zero_add, Nat.mod_eq_of_lt b.toNat_lt] at value
    exact value
  rw [packByte, length_byteBits, Nat.sub_self, List.replicate_zero, List.append_nil, bits]
  exact UInt8.ofNat_toNat

theorem bytesBits_inj {a b : List UInt8} : bytesBits a = bytesBits b ↔ a = b := by
  refine ⟨fun same => ?_, congrArg bytesBits⟩
  have length : a.length = b.length := by
    have total := congrArg List.length same
    rw [length_bytesBits, length_bytesBits] at total
    omega
  induction a generalizing b with
  | nil => exact (List.length_eq_zero_iff.mp length.symm).symm
  | cons x a ih =>
    obtain ⟨y, b, rfl⟩ := List.exists_cons_of_length_eq_add_one length.symm
    rw [bytesBits_cons, bytesBits_cons] at same
    obtain ⟨first, rest⟩ := List.append_inj same (by simp)
    have byte : x = y := by rw [← packByte_byteBits x, first, packByte_byteBits]
    rw [byte, ih rest (Nat.succ.inj length)]

/-- The bit at a place is that of the byte in which it lies. -/
theorem getElem?_bytesBits (bytes : List UInt8) (place : Nat) :
    (bytesBits bytes)[place]? =
      bytes[place / 8]?.map fun b => b.toNat.testBit (7 - place % 8) := by
  induction bytes generalizing place with
  | nil => simp
  | cons b bytes ih =>
    by_cases inside : place < 8
    · rw [bytesBits_cons, List.getElem?_append_left (by simpa using inside),
        Nat.div_eq_of_lt inside, Nat.mod_eq_of_lt inside]
      have each : ∀ i, i < 8 → (byteBits b)[i]? = some (b.toNat.testBit (7 - i)) := by
        intro i hi
        match i, hi with
        | 0, _ | 1, _ | 2, _ | 3, _ | 4, _ | 5, _ | 6, _ | 7, _ => rfl
      simpa using each place inside
    · obtain ⟨rest, rfl⟩ : ∃ rest, place = rest + 8 := ⟨place - 8, by omega⟩
      rw [bytesBits_cons, List.getElem?_append_right (by simp), length_byteBits,
        Nat.add_sub_cancel, ih, Nat.add_div_right _ (by decide), Nat.add_mod_right]
      rfl

end IndexMerge
