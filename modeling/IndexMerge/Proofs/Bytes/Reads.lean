import IndexMerge.Bytes.Source
import IndexMerge.Proofs.Reads
import Mathlib.Algebra.Group.Nat.Defs

/-!
# Reading bytes

A stored format is read from a source that holds its bytes and others behind them. Words come back
as the numbers that were written (`reads_word`).
-/

namespace IndexMerge

open Attempt

instance : Readable ByteSource UInt8 where
  Takes bytes s t := s = ⟨bytes ++ t.bytes, t.fault⟩
  takes_nil := by
    rintro s t rfl
    rfl
  takes_append := by
    rintro a b s t rfl
    exact ⟨⟨b ++ t.bytes, t.fault⟩, by rw [List.append_assoc], rfl⟩

/-- A step that reads some bytes takes them from a source that begins with them. -/
theorem Attempt.Reads.source {α : Type} {step : Decode α} {bytes : List UInt8} {a : α}
    (h : Reads step bytes a) (rest : List UInt8) (fault : Option IoFault) :
    step ⟨bytes ++ rest, fault⟩ = (.ok a, ⟨rest, fault⟩) :=
  h _ _ rfl

/-- What comes after a step that reads some bytes goes on behind them. -/
theorem Attempt.Reads.bind_source {α β : Type} {step : Decode α} {f : α → Decode β}
    {bytes : List UInt8} {a : α} (h : Reads step bytes a) (rest : List UInt8)
    (fault : Option IoFault) : (step >>= f) ⟨bytes ++ rest, fault⟩ = f a ⟨rest, fault⟩ := by
  rw [bind_apply, h.source]

theorem ofLittleEndian_toLittleEndian {count value : Nat} (short : value < 256 ^ count) :
    ofLittleEndian (toLittleEndian count value) = value := by
  induction count generalizing value with
  | zero =>
    rw [Nat.pow_zero, Nat.lt_one_iff] at short
    rw [short]
    rfl
  | succ count ih =>
    rw [Nat.pow_succ] at short
    rw [toLittleEndian, ofLittleEndian, ih (Nat.div_lt_of_lt_mul (by rwa [Nat.mul_comm])),
      UInt8.toNat_ofNat']
    exact Nat.mod_add_div value 256

namespace Decode

theorem reads_bytes (bytes : List UInt8) : Reads (Decode.bytes bytes.length) bytes bytes := by
  rintro s t rfl
  simp [Decode.bytes, ByteSource.take, rename]

theorem reads_word {count value : Nat} (short : value < 256 ^ count) :
    Reads (word count) (toLittleEndian count value) value := by
  have read := (reads_bytes (toLittleEndian count value)).map ofLittleEndian
  rwa [length_toLittleEndian, ofLittleEndian_toLittleEndian short] at read

theorem reads_u8 {value : Nat} (short : value < 256) :
    Reads u8 [UInt8.ofNat value] (UInt8.ofNat value) :=
  (@reads_word 1 value short).map UInt8.ofNat

theorem reads_u16 (value : UInt16) : Reads u16 (bytes16 value) value := by
  have read := (@reads_word 2 _ value.toNat_lt).map UInt16.ofNat
  rwa [UInt16.ofNat_toNat] at read

theorem reads_u32 (value : UInt32) : Reads u32 (bytes32 value) value := by
  have read := (@reads_word 4 _ value.toNat_lt).map UInt32.ofNat
  rwa [UInt32.ofNat_toNat] at read

theorem reads_u64 (value : UInt64) : Reads u64 (bytes64 value) value := by
  have read := (@reads_word 8 _ value.toNat_lt).map UInt64.ofNat
  rwa [UInt64.ofNat_toNat] at read

theorem reads_require {condition : Bool} (h : condition = true) (cause : BadFormat) :
    Reads (require condition cause) [] () := by
  rw [require, h]
  exact Reads.pure ()

end Decode

end IndexMerge
