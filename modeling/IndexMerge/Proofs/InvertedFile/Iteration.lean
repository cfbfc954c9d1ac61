import IndexMerge.InvertedFile.Reader
import IndexMerge.Proofs.Bits.Progress
import Mathlib.Data.List.Basic

/-!
# Going on behind malformed postings

A reader of a posting list is called again and again, whatever it answers. Every call that does not
stand still takes a bit, so after as many calls as there are bits no call changes anything
(`replies_of_place`): the reader answers none if it has given all postings, and otherwise the same
failure for ever. A failure does not count as a posting, so a list that is cut off never ends
(`endless_of_cutReader`), whereas the first failure of a lexicon is its last reply.
-/

namespace IndexMerge.PostingReader

open Attempt BitReader

theorem forward_narrow (part : PostingPart) (value : Nat) : Forward (narrow part value) := by
  unfold narrow
  by_cases short : value < UInt32.size
  · rw [if_pos short]
    exact .ofPure _
  · rw [if_neg short]
    exact .ofThrow _

theorem eager_readGap (part : PostingPart) (last : Option UInt32) : Eager (readGap part last) := by
  unfold readGap
  exact eager_readGamma.bind fun gap => forward_narrow part _

theorem forward_readBlocks (count : Nat) (last : Option UInt32) (done : Array UInt32) :
    Forward (readBlocks count last done) := by
  induction count generalizing last done with
  | zero => exact Advances.refl
  | succ count ih =>
    intro bits
    have first := (eager_readGap .block last).forward bits
    unfold readBlocks
    generalize readGap .block last bits = outcome at first ⊢
    obtain ⟨e | block, next⟩ := outcome
    · exact first
    · exact first.trans (ih _ _ next)

theorem forward_readField : Forward readField := by
  unfold readField
  exact eager_readGamma.forward.bind fun number => forward_narrow .fieldFrequency _

/-- Reading a posting takes a bit at least, however many blocks it says to have. -/
theorem eager_readPosting (layout : Layout) (last : Option UInt32) :
    Eager (readPosting layout last) := by
  unfold readPosting
  refine (eager_readGap .docId last).bind fun docId => ?_
  refine eager_readGamma.forward.bind fun number => ?_
  refine (forward_narrow .frequency number).bind fun frequency => ?_
  refine (forward_readField.times _).bind fun fieldFrequencies => ?_
  cases layout.blocks with
  | true =>
    refine eager_readGamma.forward.bind fun count => ?_
    exact (forward_readBlocks _ _ _).bind fun blocks => .ofPure _
  | false => exact Forward.bind (.ofPure []) fun blocks => .ofPure _

variable {r : PostingReader}

/-- What a call can come to: there are no postings left; there are, but no bits; or the bits are
read on, and give a posting or a failure. -/
inductive Comes (r : PostingReader) : Option (Except Error Posting) × PostingReader → Prop
  | done (all : r.remaining = 0) : Comes r (none, r)
  | starved (more : r.remaining ≠ 0) (empty : r.bits.left = 0) :
      Comes r (some (.error (.format (.endOfBits (r.bits.offset / 8)))), r)
  | given (p : Posting) {bits : BitReader} (more : r.remaining ≠ 0)
      (advances : r.bits.Advances bits) (less : bits.left < r.bits.left) :
      Comes r (some (.ok p),
        { r with bits, remaining := r.remaining - 1, last := some p.docId })
  | refused (e : Error) {bits : BitReader} (more : r.remaining ≠ 0)
      (advances : r.bits.Advances bits) (less : bits.left < r.bits.left) :
      Comes r (some (.error e), { r with bits })

theorem comes_next (r : PostingReader) : Comes r (next r) := by
  unfold next
  by_cases all : r.remaining = 0
  · rw [if_pos all]
    exact .done all
  rw [if_neg all]
  have eager := eager_readPosting r.layout r.last
  by_cases empty : r.bits.left = 0
  · rw [eager.starves r.bits empty]
    exact .starved all empty
  have advances := eager.forward r.bits
  have less := eager.takes r.bits empty
  generalize readPosting r.layout r.last r.bits = outcome at advances less ⊢
  obtain ⟨e | p, bits⟩ := outcome
  · exact .refused e all advances less
  · exact .given p all advances less

theorem advances_next (r : PostingReader) : r.bits.Advances (next r).2.bits := by
  have comes := comes_next r
  generalize next r = outcome at comes ⊢
  cases comes with
  | done all => exact .refl _
  | starved more empty => exact .refl _
  | given p more advances less => exact advances
  | refused e more advances less => exact advances

theorem next_eq_none_iff : (next r).1 = none ↔ r.remaining = 0 := by
  have comes := comes_next r
  generalize next r = outcome at comes ⊢
  cases comes with
  | done all => exact ⟨fun _ => all, fun _ => rfl⟩
  | starved more empty => simp [more]
  | given p more advances less => simp [more]
  | refused e more advances less => simp [more]

/-- The posting that an answer gives, if it gives one. -/
def posting? (reply : Option (Except Error Posting)) : Option Posting := reply.bind Except.toOption

/-- Just the answers that give postings are counted. -/
theorem remaining_next (r : PostingReader) :
    (posting? (next r).1).toList.length + (next r).2.remaining = r.remaining := by
  have comes := comes_next r
  generalize next r = outcome at comes ⊢
  cases comes with
  | done all => exact Nat.zero_add _
  | starved more empty => exact Nat.zero_add _
  | given p more advances less =>
    show 1 + (r.remaining - 1) = r.remaining
    omega
  | refused e more advances less => exact Nat.zero_add _

/-- A reader that has given all postings, or all bits. -/
def IsStill (r : PostingReader) : Prop := r.remaining = 0 ∨ r.bits.left = 0

/-- A call to a reader that stands still changes nothing. -/
theorem IsStill.next_eq (h : r.IsStill) : next r =
    (if r.remaining = 0 then none else some (.error (.format (.endOfBits (r.bits.offset / 8)))),
      r) := by
  have comes := comes_next r
  generalize next r = outcome at comes ⊢
  cases comes with
  | done all => rw [if_pos all]
  | starved more empty => rw [if_neg more]
  | given p more advances less => exact absurd h (by unfold IsStill; omega)
  | refused e more advances less => exact absurd h (by unfold IsStill; omega)

theorem left_next (moving : ¬r.IsStill) : (next r).2.bits.left < r.bits.left := by
  have comes := comes_next r
  generalize next r = outcome at comes ⊢
  cases comes with
  | done all => exact absurd (.inl all) moving
  | starved more empty => exact absurd (.inr empty) moving
  | given p more advances less => exact less
  | refused e more advances less => exact less

/-- The reader after a number of calls, whatever they gave. -/
def after : Nat → PostingReader → PostingReader
  | 0, r => r
  | n + 1, r => after n (next r).2

theorem after_succ (n : Nat) (r : PostingReader) : after (n + 1) r = (next (after n r)).2 := by
  induction n generalizing r with
  | zero => rfl
  | succ n ih => exact ih (next r).2

theorem IsStill.after_eq (h : r.IsStill) (n : Nat) : after n r = r := by
  induction n with
  | zero => rfl
  | succ n ih => rw [after_succ, ih, h.next_eq]

/-- After as many calls as there are bits a reader stands still. -/
theorem isStill_after {n : Nat} (enough : r.bits.left ≤ n) : (after n r).IsStill := by
  induction n generalizing r with
  | zero => exact .inr (Nat.le_zero.mp enough)
  | succ n ih =>
    by_cases still : r.IsStill
    · rw [still.after_eq]
      exact still
    · have less := left_next still
      exact ih (by omega)

/-- What a reader answers to its first calls. -/
def replies : Nat → PostingReader → List (Option (Except Error Posting))
  | 0, _ => []
  | n + 1, r => (next r).1 :: replies n (next r).2

/-- The postings among the first answers. -/
def given (n : Nat) (r : PostingReader) : List Posting := (replies n r).filterMap posting?

theorem length_replies (n : Nat) (r : PostingReader) : (replies n r).length = n := by
  induction n generalizing r with
  | zero => rfl
  | succ n ih => rw [replies, List.length_cons, ih]

theorem length_given_le (n : Nat) (r : PostingReader) : (given n r).length ≤ n := by
  have le := List.length_filterMap_le posting? (replies n r)
  rwa [length_replies] at le

/-- A reader has the postings left that it did not give. -/
theorem remaining_after (n : Nat) (r : PostingReader) :
    (given n r).length + (after n r).remaining = r.remaining := by
  induction n generalizing r with
  | zero => exact Nat.zero_add _
  | succ n ih =>
    have step := remaining_next r
    have rest := ih (next r).2
    rw [after, given, replies, List.filterMap_cons]
    cases gives : posting? (next r).1 with
    | none =>
      rw [gives, Option.toList_none, List.length_nil] at step
      rw [given] at rest
      dsimp only
      omega
    | some p =>
      rw [gives, Option.toList_some, List.length_singleton] at step
      rw [given] at rest
      rw [List.length_cons]
      omega

/-- All first answers give postings just if there are as many postings as answers. -/
theorem length_given_eq_iff {n : Nat} : (given n r).length = n ↔
    ∀ reply ∈ replies n r, ∃ p, reply = some (.ok p) := by
  have gives : ∀ reply, (posting? reply).isSome = true ↔ ∃ p, reply = some (.ok p) := by
    intro reply
    cases reply with
    | none => simp [posting?]
    | some reply => cases reply <;> simp [posting?, Except.toOption]
  have all := List.filterMap_length_eq_length (f := posting?) (l := replies n r)
  rw [length_replies] at all
  simp only [gives] at all
  exact all

/-- A reader is placed in some bytes and called again and again, whatever it answers. Every call
takes no more bits than are left. It answers none as soon as it has given as many postings as it
was placed for, and not before; failures do not count. So it answers none within this many calls
just if all of them before give postings. After as many calls as there are bits behind its place
nothing changes any more: if postings are left, every further call reports the end of the bits. -/
theorem replies_of_place (data : Array UInt8) (start : BitPosition) (bit : start.bit < 8)
    (byte : start.byte ≤ data.size) (count : Nat) (layout : Layout) :
    let r : PostingReader := ⟨⟨data, start.toBits⟩, layout, count, none⟩
    at? data start count layout = .ok r ∧
      (∀ n, (after n r).bits.Advances (after (n + 1) r).bits) ∧
      (∀ n, (next (after n r)).1 = none ↔ (given n r).length = count) ∧
      ((∃ n ≤ count, (next (after n r)).1 = none) ↔
        ∀ reply ∈ replies count r, ∃ p, reply = some (.ok p)) ∧
      ∀ n, 8 * data.size - start.toBits ≤ n →
        next (after n r) = (if (given n r).length = count then none
          else some (.error (.format (.endOfBits ((after n r).bits.offset / 8)))), after n r) := by
  intro r
  have ends : ∀ n, (next (after n r)).1 = none ↔ (given n r).length = count := by
    intro n
    have sum : (given n r).length + (after n r).remaining = count := remaining_after n r
    rw [next_eq_none_iff]
    omega
  refine ⟨?_, fun n => ?_, ends, ?_, fun n enough => ?_⟩
  · have placed : BitReader.at? data start = .ok ⟨data, start.toBits⟩ := by
      unfold BitReader.at?
      rw [if_neg (Nat.not_le.mpr bit), if_neg (Nat.not_lt.mpr byte)]
    rw [at?, placed]
    rfl
  · rw [after_succ]
    exact advances_next _
  · rw [← length_given_eq_iff]
    constructor
    · rintro ⟨n, le, ended⟩
      have most := length_given_le n r
      have all := (ends n).mp ended
      obtain rfl : n = count := by omega
      exact all
    · intro all
      exact ⟨count, Nat.le_refl _, (ends count).mpr all⟩
  · have few : r.bits.left ≤ n := by
      have : r.bits.left = data.size * 8 - start.toBits := rfl
      omega
    have sum : (given n r).length + (after n r).remaining = count := remaining_after n r
    rw [(isStill_after few).next_eq]
    by_cases all : (after n r).remaining = 0
    · rw [if_pos all, if_pos (by omega)]
    · rw [if_neg all, if_neg (by omega)]

/-- A reader of two postings in a byte that holds one and four zeros. -/
def cutReader : PostingReader := ⟨⟨#[0x50], 0⟩, ⟨0, false⟩, 2, none⟩

/-- The reader has given one posting when nothing changes any more, so it does not answer none
within two calls, and goes on to report the end of the bits. -/
theorem replies_of_place_cutReader : (given 8 cutReader).length = 1 ∧
    (¬∃ n ≤ 2, (next (after n cutReader)).1 = none) ∧
    next (after 8 cutReader) =
      (some (.error (.format (.endOfBits 1))), after 8 cutReader) := by
  have one : (given 8 cutReader).length = 1 := by decide +kernel
  obtain ⟨-, -, -, within, still⟩ := replies_of_place #[0x50] ⟨0, 0⟩ (by decide)
    (by decide) 2 ⟨0, false⟩
  refine ⟨one, fun ended => ?_, ?_⟩
  · obtain ⟨p, second⟩ := within.mp ended (next (after 1 cutReader)).1
      (List.mem_cons_of_mem _ List.mem_cons_self)
    have failed : (next (after 1 cutReader)).1 = some (.error (.format (.endOfBits 1))) := by
      decide +kernel
    cases failed.symm.trans second
  · have place : (after 8 cutReader).bits.offset / 8 = 1 := by decide +kernel
    have stuck : next (after 8 cutReader) = (if (given 8 cutReader).length = 2 then none
        else some (.error (.format (.endOfBits ((after 8 cutReader).bits.offset / 8)))),
      after 8 cutReader) := still 8 (by decide)
    rwa [one, place] at stuck

/-- The reader gives a posting and then fails for ever: no call answers none. -/
theorem endless_of_cutReader :
    replies 3 cutReader = [some (.ok ⟨1, 1, [], []⟩), some (.error (.format (.endOfBits 1))),
      some (.error (.format (.endOfBits 1)))] ∧
    ∀ n, (next (after n cutReader)).1 ≠ none := by
  refine ⟨by decide +kernel, fun n => ?_⟩
  match n with
  | 0 => decide +kernel
  | 1 => decide +kernel
  | n + 2 =>
    have still : (after 2 cutReader).IsStill := .inr (by decide +kernel)
    have more : (after 2 cutReader).remaining = 1 := by decide +kernel
    show (next (after n (after 2 cutReader))).1 ≠ none
    rw [still.after_eq, Ne, next_eq_none_iff, more]
    exact Nat.one_ne_zero

end IndexMerge.PostingReader
