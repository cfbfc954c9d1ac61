import IndexMerge.Proofs.Bits.Reader
import IndexMerge.Proofs.Bits.Stream
import Mathlib.Control.Monad.Basic

/-!
# Reading back what was used

A use that writes a number that it has room for is matched by a read: of a bit, of so many bits, of
a unary code, of a gamma code, or of the bits of a padding (`Use.read`). Behind the bits of any
uses, that read takes just the bits that the use wrote and gives its number (`Use.read_eq_ok`), so
from the place before any of the uses all that follow are read back, and the reader is then always
where the writer was (`readback_of_uses`).
-/

namespace IndexMerge.BitWriter

open FaithfulSink Attempt BitReader

/-- A bit or a number. -/
inductive Value where
  | bit (value : Bool)
  | number (value : Nat)
  deriving DecidableEq, Repr

namespace Use

/-- A use that is not refused and whose code can be read: a number with a gamma code is one of at
most 64 bits. Nothing can be used after `finish`. -/
def Legible : Use → Prop
  | .bit _ | .pad => True
  | .bits _ count => count ≤ 64
  | .unary value => value ≠ 0
  | .gamma value => value ≠ 0 ∧ value < 2 ^ 64
  | .finish => False

instance : DecidablePred Legible
  | .bit _ | .pad => inferInstanceAs (Decidable True)
  | .bits _ count => inferInstanceAs (Decidable (count ≤ 64))
  | .unary value => inferInstanceAs (Decidable (value ≠ 0))
  | .gamma value => inferInstanceAs (Decidable (value ≠ 0 ∧ value < 2 ^ 64))
  | .finish => inferInstanceAs (Decidable False)

/-- What is read back of a use. -/
def value : Use → Value
  | .bit value => .bit value
  | .bits value count => .number (value % 2 ^ count)
  | .unary value | .gamma value => .number value
  | .pad | .finish => .number 0

/-- How far a use behind `before` bits moves the writer. -/
def width (before : Nat) : Use → Nat
  | .bit _ => 1
  | .bits _ count => count
  | .unary value => value
  | .gamma value => 2 * value.log2 + 1
  | .pad | .finish => padding before

/-- The read that matches a use. A padding is read as the bits up to the end of the byte. -/
def read : Use → Attempt Error BitReader Value
  | .bit _ => Value.bit <$> BitReader.readBit
  | .bits _ count => Value.number <$> BitReader.readBits count
  | .unary _ => Value.number <$> BitReader.readUnary
  | .gamma _ => Value.number <$> BitReader.readGamma
  | .pad | .finish => fun r => (Value.number <$> BitReader.readBits (padding r.offset)) r

theorem Legible.refusal {u : Use} (h : u.Legible) : u.refusal = none := by
  cases u with
  | bits _ count => exact if_neg (Nat.not_lt.mpr h)
  | unary _ => exact if_neg h
  | gamma _ => exact if_neg h.1
  | bit | pad | finish => rfl

theorem Legible.ne_finish {u : Use} (h : u.Legible) : u ≠ .finish := by
  rintro rfl
  exact h

theorem Legible.length_code {u : Use} (h : u.Legible) (before : Nat) :
    (u.code before).length = u.width before := by
  cases u with
  | bit _ => rfl
  | bits value count => exact length_fixedCode count value
  | unary _ => exact length_unaryCode h
  | gamma value => exact length_gammaCode value
  | pad | finish => exact List.length_replicate

/-- The read that matches a use takes the bits that the use wrote at this place, and gives what the
use stands for. -/
theorem read_eq_ok {u : Use} (legible : u.Legible) {r : BitReader} {rest : List Bool}
    (here : ahead r = u.code r.offset ++ rest) :
    u.read r = (.ok u.value, r.skip (u.width r.offset)) := by
  have taken : Readable.Takes (u.code r.offset) r (r.skip (u.width r.offset)) :=
    ⟨⟨rest, here⟩, by rw [legible.length_code]⟩
  cases u with
  | bit value => exact (reads_readBit value).map Value.bit r _ taken
  | bits value count => exact (reads_readBits legible value).map Value.number r _ taken
  | unary value => exact (reads_readUnary legible).map Value.number r _ taken
  | gamma value => exact (reads_readGamma legible.1 legible.2).map Value.number r _ taken
  | pad =>
    have few : padding r.offset < 8 := Nat.mod_lt _ (by decide)
    have zeros := reads_readBits (by omega : padding r.offset ≤ 64) 0
    rw [Nat.zero_mod, fixedCode_zero] at zeros
    exact zeros.map Value.number r _ taken
  | finish => exact legible.elim

end Use

variable {W : Type} [ByteSink W]

/-- What uses stand for, each with the place at which it left the writer. -/
def recorded : List Use → BitWriter W → List (Except Error Value × BitPosition)
  | [], _ => []
  | u :: uses, w => (.ok u.value, (use u w).2.position) :: recorded uses (use u w).2

/-- What the reads that match uses give, each with the place at which it left the reader. -/
def readings : List Use → BitReader → List (Except Error Value × BitPosition)
  | [], _ => []
  | u :: uses, r => ((u.read r).1, (u.read r).2.position) :: readings uses (u.read r).2

variable [FaithfulSink W] {w : BitWriter W}

/-- A use that can be read back succeeds over a sink that never fails, and adds its code. -/
theorem Ready.use_legible (h : w.Ready) {u : Use} (legible : u.Legible) :
    (use u w).1 = .ok () ∧ (use u w).2.Ready ∧
      (use u w).2.written = w.written ++ u.code w.written.length := by
  obtain ⟨after, wrote⟩ := h.use_eq u
  rw [legible.refusal] at wrote
  obtain ⟨ready, -⟩ | ⟨-, isFinish⟩ := after
  · exact ⟨wrote.1, ready, wrote.2⟩
  · exact absurd isFinish legible.ne_finish

/-- Such a use moves the writer by its width. -/
theorem Ready.position_use (h : w.Ready) {u : Use} (legible : u.Legible) :
    (use u w).2.position = .ofBits (w.position.toBits + u.width w.position.toBits) := by
  obtain ⟨-, ready, wrote⟩ := h.use_legible legible
  rw [BitWriter.position_eq ready, BitWriter.position_eq h, BitPosition.toBits_ofBits, wrote,
    List.length_append, legible.length_code]

/-- Uses that can be read back succeed and leave the writer ready behind what it had written. -/
theorem Ready.after_legible (h : w.Ready) {uses : List Use} (legible : ∀ u ∈ uses, u.Legible) :
    results uses w = List.replicate uses.length (.ok ()) ∧ (after uses w).Ready ∧
      w.written <+: (after uses w).written := by
  induction uses generalizing w with
  | nil => exact ⟨rfl, h, List.prefix_rfl⟩
  | cons u uses ih =>
    obtain ⟨done, ready, wrote⟩ := h.use_legible (legible u (by simp))
    obtain ⟨others, still, front⟩ := ih ready fun v member => legible v (by simp [member])
    refine ⟨?_, still, (List.prefix_append _ _).trans (wrote ▸ front)⟩
    rw [results, done, others]
    rfl

/-- From the place of a ready writer the uses that follow are read back. The bytes hold what the
writer has written in the end, and may go on. -/
theorem Ready.readings_eq (h : w.Ready) {uses : List Use} (legible : ∀ u ∈ uses, u.Legible)
    {data : Array UInt8} (held : (after uses w).written <+: bytesBits data.toList) :
    readings uses ⟨data, w.written.length⟩ = recorded uses w := by
  induction uses generalizing w with
  | nil => rfl
  | cons u uses ih =>
    have first := legible u (by simp)
    have others : ∀ v ∈ uses, v.Legible := fun v member => legible v (by simp [member])
    obtain ⟨-, ready, wrote⟩ := h.use_legible first
    obtain ⟨rest, all⟩ := (ready.after_legible others).2.2.trans held
    rw [wrote, List.append_assoc] at all
    have here : ahead ⟨data, w.written.length⟩ = u.code w.written.length ++ rest := by
      rw [ahead, ← all, List.drop_left]
    have place : (skip ⟨data, w.written.length⟩ (u.width w.written.length)) =
        ⟨data, (use u w).2.written.length⟩ := by
      rw [skip, wrote, List.length_append, first.length_code]
    rw [readings, recorded, Use.read_eq_ok first here, place, ih ready others held]
    rw [BitWriter.position_eq ready]
    rfl

/-- Over a sink that never fails, uses that write what they have room for all succeed, and so does
finishing, whatever the capacity. A reader that is then placed in what was delivered where the
writer was before any of the uses, or behind all of them, reads back every use from there on: a bit
as it was, the low bits of a number that were asked for, a number with a unary or a gamma code, and
a padding as zero. After each of the reads it is where the writer was after the use. A use moves
the writer by one bit, by the count of its bits, by its number, by twice the number's binary
logarithm and one more, or up to the end of the byte. -/
theorem readback_of_uses {sink : W} (fresh : Fresh sink) (capacity : Nat) {uses : List Use}
    (legible : ∀ u ∈ uses, u.Legible) :
    let writer := fun k => after (uses.take k) (start capacity sink)
    results uses (start capacity sink) = List.replicate uses.length (.ok ()) ∧
      (∃ closed, finish (writer uses.length) = (.ok (), closed) ∧
        ∀ k, ∃ r, BitReader.at? (content closed.sink).toArray (writer k).position = .ok r ∧
          readings (uses.drop k) r = recorded (uses.drop k) (writer k)) ∧
      ∀ k (inside : k < uses.length), (writer (k + 1)).position =
        .ofBits ((writer k).position.toBits + uses[k].width (writer k).position.toBits) := by
  intro writer
  obtain ⟨begun, -⟩ := ready_start capacity fresh
  have each : ∀ k, (writer k).Ready := fun k =>
    (begun.after_legible fun u member => legible u (List.mem_of_mem_take member)).2.1
  have behind : ∀ k, ∀ u ∈ uses.drop k, u.Legible :=
    fun k u member => legible u (List.mem_of_mem_drop member)
  have onward : ∀ k, after (uses.drop k) (writer k) = writer uses.length := by
    intro k
    rw [← after_append, List.take_append_drop, ← List.take_length (l := uses)]
    simp only [writer, List.take_length]
  refine ⟨(begun.after_legible legible).1, ?_, ?_⟩
  · obtain ⟨closed, done, delivered⟩ := finish_eq_ok (each uses.length)
    refine ⟨closed, done, fun k => ?_⟩
    have held : (writer uses.length).written <+: bytesBits (content closed.sink) := by
      rw [delivered]
      exact List.prefix_append _ _
    have reached : (writer k).written <+: bytesBits (content closed.sink) := by
      rw [← onward k] at held
      exact ((each k).after_legible (behind k)).2.2.trans held
    refine ⟨⟨(content closed.sink).toArray, (writer k).written.length⟩, ?_, ?_⟩
    · have inside := reached.length_le
      rw [length_bytesBits] at inside
      rw [BitWriter.position_eq (each k)]
      exact at?_ofBits inside
    · refine (each k).readings_eq (behind k) ?_
      rw [onward k]
      exact held
  · intro k inside
    have next : writer (k + 1) = (use uses[k] (writer k)).2 := by
      simp only [writer, List.take_succ_eq_append_getElem inside, after_append]
      rfl
    rw [next]
    exact (each k).position_use (legible _ (List.getElem_mem inside))

/-- Codes of every shape, the longest ones among them. -/
def mixedUses : List Use :=
  [.bit true, .bits 346 8, .unary 4, .gamma (2 ^ 64 - 1), .pad, .bits (2 ^ 64 - 1) 64,
    .gamma (2 ^ 63), .gamma 1]

/-- From the fourth use on the codes are read back, and every place is the writer's. -/
theorem readback_of_uses_mixed :
    ∃ closed r, finish (after (mixedUses.take 8) (start 1 (#[] : Array UInt8))) = (.ok (), closed) ∧
      BitReader.at? (content closed.sink).toArray ⟨1, 5⟩ = .ok r ∧
      readings (mixedUses.drop 3) r =
        [(.ok (.number (2 ^ 64 - 1)), ⟨17, 4⟩), (.ok (.number 0), ⟨18, 0⟩),
          (.ok (.number (2 ^ 64 - 1)), ⟨26, 0⟩), (.ok (.number (2 ^ 63)), ⟨41, 7⟩),
          (.ok (.number 1), ⟨42, 0⟩)] := by
  have legible : ∀ u ∈ mixedUses, u.Legible := by decide
  obtain ⟨-, ⟨closed, done, read⟩, -⟩ := readback_of_uses fresh_array 1 legible
  obtain ⟨r, placed, given⟩ := read 3
  have place : (after (mixedUses.take 3) (start 1 (#[] : Array UInt8))).position = ⟨1, 5⟩ := by
    decide +kernel
  refine ⟨closed, r, done, place ▸ placed, given.trans ?_⟩
  decide +kernel

end IndexMerge.BitWriter
