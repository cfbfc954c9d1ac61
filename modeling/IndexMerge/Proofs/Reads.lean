import IndexMerge.Attempt

/-!
# Reading codes

A step reads a code as a value if it takes just the code from any state that begins with it and
gives the value (`Attempt.Reads`). Steps in a row read codes in a row, so a decoder is proved
against its encoder field by field.
-/

namespace IndexMerge

/-- States from which symbols are read. -/
class Readable (σ : Type) (γ : outParam Type) where
  /-- The symbols are ahead of the first state, and the second is right behind them. -/
  Takes : List γ → σ → σ → Prop
  takes_nil : ∀ {s t : σ}, Takes [] s t → t = s
  takes_append : ∀ {a b : List γ} {s u : σ}, Takes (a ++ b) s u → ∃ t, Takes a s t ∧ Takes b t u

namespace Attempt

variable {ε σ γ α β : Type} [Readable σ γ]

/-- A step takes exactly this code, whatever is behind it, and gives a value. -/
def Reads (step : Attempt ε σ α) (code : List γ) (a : α) : Prop :=
  ∀ s t, Readable.Takes code s t → step s = (.ok a, t)

theorem Reads.pure (a : α) : Reads (Pure.pure a : Attempt ε σ α) [] a := by
  intro s t taken
  rw [Readable.takes_nil taken]
  rfl

theorem Reads.bind {step : Attempt ε σ α} {f : α → Attempt ε σ β} {code more : List γ} {a : α}
    {b : β} (first : Reads step code a) (second : Reads (f a) more b) :
    Reads (step >>= f) (code ++ more) b := by
  intro s u taken
  obtain ⟨t, front, behind⟩ := Readable.takes_append taken
  rw [bind_apply, first s t front]
  exact second t u behind

/-- A step that takes nothing may come before another. -/
theorem Reads.after {step : Attempt ε σ α} {f : α → Attempt ε σ β} {code : List γ} {a : α} {b : β}
    (first : Reads step [] a) (second : Reads (f a) code b) : Reads (step >>= f) code b :=
  first.bind second

/-- What is done with a value at the end of a step takes nothing. -/
theorem Reads.last {step : Attempt ε σ α} {f : α → Attempt ε σ β} {code : List γ} {a : α} {b : β}
    (first : Reads step code a) (second : Reads (f a) [] b) : Reads (step >>= f) code b := by
  have both := first.bind second
  rwa [List.append_nil] at both

theorem Reads.map {step : Attempt ε σ α} {code : List γ} {a : α} (f : α → β)
    (h : Reads step code a) : Reads (f <$> step) code (f a) := by
  intro s t taken
  rw [map_apply, h s t taken]

theorem reads_times {step : Attempt ε σ α} {code : α → List γ} {values : List α}
    (each : ∀ v ∈ values, Reads step (code v) v) :
    Reads (step.times values.length) (values.flatMap code) values := by
  have go : ∀ (values : List α) (done : Array α), (∀ v ∈ values, Reads step (code v) v) →
      Reads (times.go step values.length done) (values.flatMap code) (done.toList ++ values) := by
    intro values
    induction values with
    | nil =>
      intro done _ s t taken
      rw [Readable.takes_nil taken, List.append_nil]
      rfl
    | cons v values ih =>
      intro done each s u taken
      obtain ⟨t, front, behind⟩ := Readable.takes_append taken
      have rest := ih (done.push v) (fun other member => each other (by simp [member])) t u behind
      rw [List.length_cons, times.go, each v (by simp) s t front]
      simpa using rest
  exact go values #[] each

end Attempt

end IndexMerge
