import IndexMerge.Bytes.Source

/-!
# Steps that report no violation

A step that reads bytes or writes them fails because of a device, a format or an argument, and never
because a rule of runs or of merging is broken (`Attempt.Quiet`). Steps in a row are quiet if each
of them is.
-/

namespace IndexMerge

namespace Attempt

variable {σ α β : Type}

/-- A step that reports no violation. -/
def Quiet (step : Attempt Error σ α) : Prop :=
  ∀ s v, (step s).1 ≠ .error (.violation v)

namespace Quiet

theorem ofPure (a : α) : Quiet (pure a : Attempt Error σ α) := by
  intro s v failed
  cases failed

theorem ofThrow {e : Error} (other : ∀ v, e ≠ .violation v) :
    Quiet (throw e : Attempt Error σ α) := by
  intro s v failed
  exact other v (Except.error.inj failed)

theorem bind {step : Attempt Error σ α} {f : α → Attempt Error σ β} (h : Quiet step)
    (hf : ∀ a, Quiet (f a)) : Quiet (step >>= f) := by
  intro s v
  have first := h s v
  rw [bind_apply]
  split <;> rename_i result
  · exact hf _ _ v
  · rw [result] at first
    exact fun failed => first (congrArg Except.error (Except.error.inj failed))

theorem map {step : Attempt Error σ α} (f : α → β) (h : Quiet step) : Quiet (f <$> step) :=
  bind h fun a => ofPure (f a)

theorem times {step : Attempt Error σ α} (h : Quiet step) (count : Nat) :
    Quiet (step.times count) := by
  have go : ∀ (count : Nat) (done : Array α), Quiet (times.go step count done) := by
    intro count
    induction count with
    | zero =>
      intro done s v failed
      cases failed
    | succ count ih =>
      intro done s v
      have first := h s v
      unfold times.go
      split <;> rename_i result
      · exact ih _ _ v
      · rw [result] at first
        exact fun failed => first (congrArg Except.error (Except.error.inj failed))
  exact go count #[]

/-- What a device reports is no violation. -/
theorem rename (step : Attempt IoFault σ α) (context : String) :
    Quiet (step.rename (Error.io context)) := by
  intro s v
  unfold Attempt.rename
  split <;> nofun

end Quiet

end Attempt

namespace Decode

open Attempt

theorem quiet_bytes (count : Nat) : Quiet (bytes count) := .rename _ _

theorem quiet_word (count : Nat) : Quiet (word count) := .map _ (quiet_bytes count)

theorem quiet_u16 : Quiet u16 := .map _ (quiet_word 2)

theorem quiet_u32 : Quiet u32 := .map _ (quiet_word 4)

theorem quiet_u64 : Quiet u64 := .map _ (quiet_word 8)

theorem quiet_require (condition : Bool) (cause : BadFormat) : Quiet (require condition cause) := by
  unfold require
  split
  · exact .ofPure ()
  · exact .ofThrow nofun

end Decode

end IndexMerge
