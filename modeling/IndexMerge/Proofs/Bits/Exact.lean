import IndexMerge.Proofs.Bits.Reader
import IndexMerge.Proofs.Exact

/-!
# Which bits are accepted

Reading a gamma code takes just the gamma code of the number that it gives, which is not zero and
has at most 64 bits (`exact_readGamma`): there is one gamma code for each number, and bits that
begin with none are refused.
-/

namespace IndexMerge.BitReader

open Attempt

instance : Traceable BitReader Bool where
  nil_takes r := ⟨⟨ahead r, rfl⟩, rfl⟩
  append_takes := by
    rintro a b r s t ⟨⟨rest, front⟩, rfl⟩ ⟨⟨rest', behind⟩, rfl⟩
    rw [ahead_skip front] at behind
    refine ⟨⟨rest', ?_⟩, ?_⟩
    · rw [front, behind, List.append_assoc]
    · rw [skip_skip, List.length_append]

theorem exact_readBit : Exact readBit fun code bit => code = [bit] := by
  intro r r' bit given
  unfold readBit at given
  split at given
  · rename_i inside
    have here : (bytesBits r.data.toList)[r.offset]? =
        some (r.data[r.offset / 8].toNat.testBit (7 - r.offset % 8)) := by
      rw [getElem?_bytesBits, Array.getElem?_toList, Array.getElem?_eq_getElem inside]
      rfl
    cases given
    obtain ⟨short, found⟩ := List.getElem?_eq_some_iff.mp here
    refine ⟨_, rfl, ⟨(bytesBits r.data.toList).drop (r.offset + 1), ?_⟩, rfl⟩
    rw [ahead, List.drop_eq_getElem_cons short, found]
    rfl
  · cases given

theorem exact_readOnto (count value : Nat) : Exact (readOnto count value) fun code number =>
    code.length = count ∧ number = code.foldl withBit value := by
  induction count generalizing value with
  | zero =>
    intro r r' number given
    cases given
    exact ⟨[], ⟨rfl, rfl⟩, Traceable.nil_takes r⟩
  | succ count ih =>
    intro r r' number given
    rw [readOnto] at given
    split at given
    · rename_i bit next asked
      obtain ⟨_, rfl, front⟩ := exact_readBit r next bit asked
      obtain ⟨code, ⟨rfl, rfl⟩, behind⟩ := ih _ next r' number given
      exact ⟨bit :: code, ⟨rfl, rfl⟩, Traceable.append_takes front behind⟩
    · cases given

theorem exact_countZeros (value : Nat) : Exact (countZeros value) fun code number =>
    ∃ zeros, number = value + zeros ∧ code = List.replicate zeros false ++ [true] := by
  intro r r' number given
  fun_induction countZeros value r with
  | case1 value r next asked =>
    cases given
    obtain ⟨_, rfl, taken⟩ := exact_readBit r r' true asked
    exact ⟨[true], ⟨0, rfl, rfl⟩, taken⟩
  | case2 value r next asked ih =>
    obtain ⟨_, rfl, front⟩ := exact_readBit r next false asked
    obtain ⟨_, ⟨zeros, rfl, rfl⟩, behind⟩ := ih given
    refine ⟨[false] ++ (List.replicate zeros false ++ [true]), ⟨zeros + 1, by omega, rfl⟩, ?_⟩
    exact Traceable.append_takes front behind
  | case3 => cases given

theorem exact_readUnary : Exact readUnary fun code number =>
    number ≠ 0 ∧ code = unaryCode number := by
  refine (exact_countZeros 1).mono ?_
  rintro _ _ ⟨zeros, rfl, rfl⟩
  refine ⟨by omega, ?_⟩
  rw [unaryCode, Nat.add_sub_cancel_left]

/-- A number of one bit more than these, which begins with a one. -/
theorem log2_foldl_withBit (bits : List Bool) : (bits.foldl withBit 1).log2 = bits.length := by
  have bound := ofBits_lt bits
  rw [foldl_withBit, Nat.one_mul]
  have positive : 2 ^ bits.length + ofBits bits ≠ 0 := by
    have := Nat.two_pow_pos bits.length
    omega
  rw [Nat.log2_eq_iff positive, Nat.pow_succ]
  omega

/-- What is read as a number is its gamma code. -/
theorem exact_readGamma : Exact readGamma fun code number =>
    number ≠ 0 ∧ number < 2 ^ 64 ∧ code = gammaCode number := by
  unfold readGamma
  refine exact_readUnary.bind ?_
  rintro _ length ⟨positive, rfl⟩
  by_cases long : 64 < length
  · rw [if_pos long]
    exact Exact.throw _
  · rw [if_neg long]
    refine (exact_readOnto (length - 1) 1).mono ?_
    rintro bits _ ⟨count, rfl⟩
    have log := log2_foldl_withBit bits
    have size := @Nat.lt_log2_self (bits.foldl withBit 1)
    have small : 2 ^ (bits.length + 1) ≤ 2 ^ 64 := Nat.pow_le_pow_right (by decide) (by omega)
    rw [log] at size
    refine ⟨?_, Nat.lt_of_lt_of_le size small, ?_⟩
    · have leading := foldl_withBit bits 1
      have := Nat.two_pow_pos bits.length
      omega
    · rw [gammaCode, log, fixedCode_foldl, count, Nat.sub_add_cancel (by omega)]

end IndexMerge.BitReader
