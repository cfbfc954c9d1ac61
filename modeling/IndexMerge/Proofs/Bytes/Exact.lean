import IndexMerge.Bytes.Progress
import IndexMerge.Proofs.Bytes.Reads
import IndexMerge.Proofs.Exact

/-!
# Which bytes are accepted

Bytes of a fixed count stand for just one number each, so a step that reads words takes just the
bytes that the numbers are written as. If a local step succeeds on the beginning of a longer input,
it takes there what it would take from the whole (`Local.of_reads`).
-/

namespace IndexMerge

open Attempt

instance : Traceable ByteSource UInt8 where
  nil_takes _ := rfl
  append_takes := by
    rintro a b s t u rfl rfl
    show (⟨a ++ (b ++ u.bytes), u.fault⟩ : ByteSource) = ⟨a ++ b ++ u.bytes, u.fault⟩
    rw [List.append_assoc]

/-- Of a proper part of some bytes others are missing. -/
theorem exists_missing {bytes whole : List UInt8} (part : bytes <+: whole)
    (proper : bytes ≠ whole) : ∃ missing, missing ≠ [] ∧ bytes ++ missing = whole := by
  obtain ⟨missing, rfl⟩ := part
  refine ⟨missing, ?_, rfl⟩
  rintro rfl
  exact proper (List.append_nil bytes).symm

/-- A step that reads some bytes takes them from a source that begins with them. -/
theorem Attempt.Reads.of_bytes {α : Type} {step : Decode α} {code rest : List UInt8} {a : α}
    {s : ByteSource} (h : Reads step code a) (begins : s.bytes = code ++ rest) :
    step s = (.ok a, ⟨rest, s.fault⟩) := by
  have read := h.source rest s.fault
  rwa [← begins] at read

namespace Attempt.Local

variable {α : Type} {step : Decode α} {s t : ByteSource} {a b : α} {code more rest : List UInt8}

/-- What a local step gives it gives from a longer input too. -/
theorem longer (own : Local step) (given : step s = (.ok a, t)) (more : List UInt8) :
    step ⟨s.bytes ++ more, s.fault⟩ = (.ok a, ⟨t.bytes ++ more, t.fault⟩) := by
  obtain ⟨code, reads, rfl⟩ := own s t a given
  have whole := reads.source (t.bytes ++ more) t.fault
  rwa [← List.append_assoc] at whole

/-- A local step that succeeds on a part of an input that begins with a code reads the code. -/
theorem of_reads (own : Local step) (reads : Reads step code a) (given : step s = (.ok b, t))
    (same : s.bytes ++ more = code ++ rest) :
    b = a ∧ s.bytes = code ++ t.bytes ∧ t.bytes ++ more = rest ∧ t.fault = s.fault := by
  have part := own.longer given more
  rw [same, reads.source rest s.fault] at part
  obtain ⟨value, state⟩ := Prod.mk.inj part
  obtain rfl := Except.ok.inj value
  obtain ⟨rfl, fault⟩ := ByteSource.mk.inj state
  rw [← List.append_assoc] at same
  exact ⟨rfl, List.append_cancel_right same, rfl, fault.symm⟩

end Attempt.Local

theorem ofLittleEndian_lt (bytes : List UInt8) : ofLittleEndian bytes < 256 ^ bytes.length := by
  induction bytes with
  | nil => decide
  | cons b bytes ih =>
    have := b.toNat_lt
    rw [ofLittleEndian, List.length_cons, Nat.pow_succ]
    omega

theorem toLittleEndian_ofLittleEndian (bytes : List UInt8) :
    toLittleEndian bytes.length (ofLittleEndian bytes) = bytes := by
  induction bytes with
  | nil => rfl
  | cons b bytes ih =>
    have short := b.toNat_lt
    have low : UInt8.ofNat (b.toNat + 256 * ofLittleEndian bytes) = b := by
      apply UInt8.toNat_inj.mp
      rw [UInt8.toNat_ofNat']
      omega
    have high : (b.toNat + 256 * ofLittleEndian bytes) / 256 = ofLittleEndian bytes := by omega
    rw [ofLittleEndian, List.length_cons, toLittleEndian, low, high, ih]

/-- Of a number that is too large for its bytes a lesser number is written. -/
theorem exists_toLittleEndian_eq (count value : Nat) :
    ∃ word, toLittleEndian count word = toLittleEndian count value ∧ word ≤ value ∧
      word < 256 ^ count := by
  induction count generalizing value with
  | zero => exact ⟨0, rfl, Nat.zero_le value, Nat.zero_lt_one⟩
  | succ count ih =>
    obtain ⟨word, same, le, short⟩ := ih (value / 256)
    refine ⟨value % 256 + 256 * word, ?_, by omega, by rw [Nat.pow_succ]; omega⟩
    have low : UInt8.ofNat (value % 256 + 256 * word) = UInt8.ofNat value := by
      apply UInt8.toNat_inj.mp
      rw [UInt8.toNat_ofNat', UInt8.toNat_ofNat']
      omega
    have high : (value % 256 + 256 * word) / 256 = word := by omega
    rw [toLittleEndian, toLittleEndian, low, high, same]

namespace Decode

theorem exact_bytes (count : Nat) :
    Exact (Decode.bytes count) fun code taken => taken.length = count ∧ code = taken := by
  intro s t taken given
  unfold Decode.bytes rename at given
  split at given
  · rename_i bytes s' read
    cases given
    have ⟨length, split, fault⟩ := ByteSource.take_eq_ok read
    refine ⟨taken, ⟨length, rfl⟩, ?_⟩
    show s = ⟨taken ++ t.bytes, t.fault⟩
    rw [← split, fault]
  · cases given

theorem exact_word (count : Nat) : Exact (word count) fun code value =>
    value < 256 ^ count ∧ code = toLittleEndian count value := by
  refine (exact_bytes count).map ?_
  rintro code _ ⟨rfl, rfl⟩
  exact ⟨ofLittleEndian_lt code, (toLittleEndian_ofLittleEndian code).symm⟩

theorem exact_u8 : Exact u8 fun code value => code = [value] := by
  refine (exact_word 1).map ?_
  rintro _ value ⟨short, rfl⟩
  rfl

theorem exact_u16 : Exact u16 fun code value => code = bytes16 value := by
  refine (exact_word 2).map ?_
  rintro _ value ⟨short, rfl⟩
  rw [bytes16, UInt16.toNat_ofNat_of_lt' short]

theorem exact_u32 : Exact u32 fun code value => code = bytes32 value := by
  refine (exact_word 4).map ?_
  rintro _ value ⟨short, rfl⟩
  rw [bytes32, UInt32.toNat_ofNat_of_lt' short]

theorem exact_u64 : Exact u64 fun code value => code = bytes64 value := by
  refine (exact_word 8).map ?_
  rintro _ value ⟨short, rfl⟩
  rw [bytes64, UInt64.toNat_ofNat_of_lt' short]

theorem exact_require (condition : Bool) (cause : BadFormat) :
    Exact (require condition cause) fun code _ => code = [] ∧ condition = true := by
  unfold require
  cases condition with
  | true => exact Exact.pure ⟨rfl, rfl⟩
  | false => exact Exact.throw _

end Decode

end IndexMerge
