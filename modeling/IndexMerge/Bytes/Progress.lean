import IndexMerge.Bytes.Source

/-!
# Reading goes forward

No step of reading makes the bytes longer, and a read that succeeds takes the bytes that it
gives. By this, loops over a stored format end.
-/

namespace IndexMerge

theorem ByteSource.take_eq_ok {count : Nat} {s s' : ByteSource} {taken : List UInt8}
    (h : take count s = (.ok taken, s')) :
    taken.length = count ∧ s.bytes = taken ++ s'.bytes ∧ s'.fault = s.fault := by
  simp only [take] at h
  split at h
  · cases h
  · rename_i enough
    cases h
    have := List.length_take_le count s.bytes
    exact ⟨by omega, (List.take_append_drop count s.bytes).symm, rfl⟩

/-- A step of reading that never leaves more bytes than it finds. -/
def Decode.Forward {α : Type} (step : Decode α) : Prop :=
  ∀ s, (step s).2.bytes.length ≤ s.bytes.length

namespace Decode.Forward

variable {α β : Type}

theorem ofPure (a : α) : Forward (pure a : Decode α) := fun _ => Nat.le_refl _

theorem ofThrow (e : Error) : Forward (throw e : Decode α) := fun _ => Nat.le_refl _

theorem bind {step : Decode α} {f : α → Decode β} (h : Forward step) (hf : ∀ a, Forward (f a)) :
    Forward (step >>= f) := by
  intro s
  have first := h s
  rw [Attempt.bind_apply]
  split
  · rename_i result
    rw [result] at first
    exact Nat.le_trans (hf _ _) first
  · rename_i result
    rwa [result] at first

theorem map {step : Decode α} (f : α → β) (h : Forward step) : Forward (f <$> step) :=
  bind h fun a => ofPure (f a)

theorem bytes (count : Nat) : Forward (Decode.bytes count) := by
  intro s
  have shorter : ((ByteSource.take count s).2).bytes.length ≤ s.bytes.length := by
    unfold ByteSource.take
    dsimp only
    split <;> simp
  unfold Decode.bytes Attempt.rename
  split <;> rename_i result <;> rwa [result] at shorter

theorem word (count : Nat) : Forward (Decode.word count) := map _ (bytes count)

theorem u8 : Forward Decode.u8 := map _ (word 1)

theorem u16 : Forward Decode.u16 := map _ (word 2)

theorem u32 : Forward Decode.u32 := map _ (word 4)

theorem u64 : Forward Decode.u64 := map _ (word 8)

theorem require (condition : Bool) (cause : BadFormat) :
    Forward (Decode.require condition cause) := by
  unfold Decode.require
  split
  · exact ofPure ()
  · exact ofThrow _

theorem times {step : Decode α} (h : Forward step) (count : Nat) : Forward (step.times count) :=
  go count #[]
where
  go : ∀ (count : Nat) (done : Array α), Forward (Attempt.times.go step count done)
    | 0, _ => fun _ => Nat.le_refl _
    | count + 1, done => by
      intro s
      have first := h s
      unfold Attempt.times.go
      split
      · rename_i result
        rw [result] at first
        exact Nat.le_trans (go count _ _) first
      · rename_i result
        rwa [result] at first

end Decode.Forward

end IndexMerge
