import IndexMerge.Bits.Reader

/-!
# Reading bits goes forward

Whatever a step reads, and whether or not it succeeds, it takes only bits that are there
(`Forward`). A step that begins by reading a bit takes one at least; where there is none, it says so
and stays (`Eager`). So such a step can be repeated only as often as there are bits before it does
nothing any more.
-/

namespace IndexMerge.BitReader

open Attempt

variable {α β : Type} {r s t : BitReader}

/-- One reader stands behind another one in the same bytes, by no more bits than were left. -/
structure Advances (r s : BitReader) : Prop where
  data_eq : s.data = r.data
  offset_le : r.offset ≤ s.offset
  taken_le : s.offset - r.offset ≤ r.left

namespace Advances

theorem refl (r : BitReader) : r.Advances r := by
  refine ⟨rfl, Nat.le_refl _, ?_⟩
  rw [Nat.sub_self]
  exact Nat.zero_le _

theorem trans (h : r.Advances s) (h' : s.Advances t) : r.Advances t := by
  have sizes : s.data.size = r.data.size := congrArg Array.size h.data_eq
  have first := h.taken_le
  have second := h'.taken_le
  have front := h.offset_le
  have behind := h'.offset_le
  refine ⟨h'.data_eq.trans h.data_eq, Nat.le_trans front behind, ?_⟩
  simp only [left] at first second ⊢
  omega

theorem left_le (h : r.Advances s) : s.left ≤ r.left := by
  have front := h.offset_le
  rw [left, left, h.data_eq]
  omega

end Advances

/-- A step that takes only bits that are there. -/
def Forward (step : Attempt Error BitReader α) : Prop :=
  ∀ r : BitReader, r.Advances (step r).2

namespace Forward

theorem ofPure (a : α) : Forward (pure a : Attempt Error BitReader α) := Advances.refl

theorem ofThrow (e : Error) : Forward (throw e : Attempt Error BitReader α) := Advances.refl

theorem bind {step : Attempt Error BitReader α} {f : α → Attempt Error BitReader β}
    (h : Forward step) (hf : ∀ a, Forward (f a)) : Forward (step >>= f) := by
  intro r
  have first := h r
  rw [bind_apply]
  generalize step r = outcome at first ⊢
  obtain ⟨e | a, s⟩ := outcome
  · exact first
  · exact first.trans (hf a s)

theorem times {step : Attempt Error BitReader α} (h : Forward step) (count : Nat) :
    Forward (step.times count) := by
  have go : ∀ (count : Nat) (done : Array α), Forward (times.go step count done) := by
    intro count
    induction count with
    | zero => exact fun done => Advances.refl
    | succ count ih =>
      intro done r
      have first := h r
      unfold times.go
      generalize step r = outcome at first ⊢
      obtain ⟨e | a, s⟩ := outcome
      · exact first
      · exact first.trans (ih _ s)
  exact go count #[]

end Forward

/-- A step that takes a bit at least. Where there is none, it says so and stays. -/
structure Eager (step : Attempt Error BitReader α) : Prop where
  forward : Forward step
  starves : ∀ r : BitReader, r.left = 0 → step r = (.error (.format (.endOfBits (r.offset / 8))), r)
  takes : ∀ r : BitReader, r.left ≠ 0 → (step r).2.left < r.left

/-- What begins by taking a bit takes a bit. -/
theorem Eager.bind {step : Attempt Error BitReader α} {f : α → Attempt Error BitReader β}
    (h : Eager step) (hf : ∀ a, Forward (f a)) : Eager (step >>= f) := by
  refine ⟨h.forward.bind hf, fun r none => ?_, fun r some => ?_⟩
  · rw [bind_apply, h.starves r none]
  · have fewer := h.takes r some
    rw [bind_apply]
    generalize step r = outcome at fewer ⊢
    obtain ⟨e | a, s⟩ := outcome
    · exact fewer
    · exact Nat.lt_of_le_of_lt (hf a s).left_le fewer

theorem eager_readBit : Eager readBit := by
  have inside : ∀ r : BitReader, r.left ≠ 0 ↔ r.offset / 8 < r.data.size := by
    intro r
    unfold left
    omega
  refine ⟨fun r => ?_, fun r none => ?_, fun r some => ?_⟩
  · unfold readBit
    by_cases here : r.offset / 8 < r.data.size
    · have more := (inside r).mpr here
      rw [dif_pos here]
      refine ⟨rfl, Nat.le_succ _, ?_⟩
      dsimp only
      omega
    · rw [dif_neg here]
      exact .refl r
  · have gone : ¬r.offset / 8 < r.data.size := fun here => (inside r).mpr here none
    unfold readBit
    rw [dif_neg gone]
  · have here := (inside r).mp some
    unfold readBit
    rw [dif_pos here]
    simp only [left]
    omega

theorem forward_readOnto (count value : Nat) : Forward (readOnto count value) := by
  induction count generalizing value with
  | zero => exact Advances.refl
  | succ count ih =>
    intro r
    have first := eager_readBit.forward r
    unfold readOnto
    generalize readBit r = outcome at first ⊢
    obtain ⟨e | bit, s⟩ := outcome
    · exact first
    · exact first.trans (ih _ s)

theorem forward_countZeros (value : Nat) : Forward (countZeros value) := by
  intro r
  fun_induction countZeros value r with
  | case1 value r s asked =>
    have first := eager_readBit.forward r
    rwa [asked] at first
  | case2 value r s asked ih =>
    have first := eager_readBit.forward r
    rw [asked] at first
    exact first.trans ih
  | case3 value r e s asked =>
    have first := eager_readBit.forward r
    rwa [asked] at first

theorem eager_countZeros (value : Nat) : Eager (countZeros value) := by
  have begins : countZeros value = readBit >>= fun bit =>
      if bit then pure value else countZeros (value + 1) := by
    funext r
    rw [bind_apply, countZeros]
    split <;> rename_i asked <;> rw [asked] <;> rfl
  rw [begins]
  refine eager_readBit.bind fun bit => ?_
  cases bit with
  | true => exact .ofPure value
  | false => exact forward_countZeros (value + 1)

theorem eager_readGamma : Eager readGamma := by
  unfold readGamma readUnary
  refine (eager_countZeros 1).bind fun length => ?_
  by_cases long : 64 < length
  · rw [if_pos long]
    exact .ofThrow _
  · rw [if_neg long]
    exact forward_readOnto _ _

end IndexMerge.BitReader
