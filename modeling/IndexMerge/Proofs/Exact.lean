import IndexMerge.Proofs.Reads

/-!
# Accepting nothing but codes

A step is exact if, whenever it gives a value, what it took is a code of that value
(`Attempt.Exact`). Steps in a row take codes in a row, so a decoder is shown field by field to
accept nothing but what its encoder writes.

The codes may be known only by what the step does with them: a step is local if it reads what it
took as the value that it gave, whatever is behind it (`Attempt.Local`). A local step that gives a
value before the end of its input would give the same value if the input went on.
-/

namespace IndexMerge

/-- States from which what is taken in parts is taken as a whole. -/
class Traceable (σ : Type) (γ : outParam Type) extends Readable σ γ where
  nil_takes : ∀ s : σ, Takes [] s s
  append_takes : ∀ {a b : List γ} {s t u : σ}, Takes a s t → Takes b t u → Takes (a ++ b) s u

namespace Attempt

variable {ε σ γ α β : Type} [Traceable σ γ]

/-- What a step takes is a code of the value that it gives. -/
def Exact (step : Attempt ε σ α) (Code : List γ → α → Prop) : Prop :=
  ∀ s t a, step s = (.ok a, t) → ∃ code, Code code a ∧ Readable.Takes code s t

namespace Exact

variable {step : Attempt ε σ α} {f : α → Attempt ε σ β} {Code First : List γ → α → Prop}
  {More : List γ → β → Prop}

theorem pure {a : α} (empty : Code [] a) : Exact (Pure.pure a : Attempt ε σ α) Code := by
  intro s t b given
  cases given
  exact ⟨[], empty, Traceable.nil_takes s⟩

theorem throw (e : ε) : Exact (MonadExcept.throw e : Attempt ε σ α) Code := by
  intro s t a given
  cases given

theorem bind (first : Exact step First)
    (second : ∀ code a, First code a → Exact (f a) fun more b => More (code ++ more) b) :
    Exact (step >>= f) More := by
  intro s u b given
  obtain ⟨a, t, given, rest⟩ := bind_eq_ok.mp given
  obtain ⟨code, coded, front⟩ := first s t a given
  obtain ⟨more, coded, behind⟩ := second code a coded t u b rest
  exact ⟨code ++ more, coded, Traceable.append_takes front behind⟩

theorem mono (h : Exact step First) (wider : ∀ code a, First code a → Code code a) :
    Exact step Code := by
  intro s t a given
  obtain ⟨code, coded, taken⟩ := h s t a given
  exact ⟨code, wider code a coded, taken⟩

theorem map {g : α → β} (h : Exact step First) (wider : ∀ code a, First code a → More code (g a)) :
    Exact (g <$> step) More := by
  intro s t b given
  rw [map_apply] at given
  split at given
  · rename_i a t asked
    cases given
    obtain ⟨code, coded, taken⟩ := h s t a asked
    exact ⟨code, wider code a coded, taken⟩
  · cases given

/-- A step that is taken a number of times takes as many codes. -/
theorem times {P : α → Prop} {encode : α → List γ}
    (h : Exact step fun code a => P a ∧ code = encode a) (count : Nat) :
    Exact (step.times count) fun code values =>
      values.length = count ∧ (∀ v ∈ values, P v) ∧ code = values.flatMap encode := by
  have go : ∀ (count : Nat) (done : Array α), Exact (times.go step count done) fun code values =>
      ∃ new, values = done.toList ++ new ∧ new.length = count ∧ (∀ v ∈ new, P v) ∧
        code = new.flatMap encode := by
    intro count
    induction count with
    | zero =>
      intro done s t values given
      cases given
      exact ⟨[], ⟨[], by simp⟩, Traceable.nil_takes s⟩
    | succ count ih =>
      intro done s u values given
      unfold times.go at given
      split at given
      · rename_i a t asked
        obtain ⟨_, ⟨holds, rfl⟩, front⟩ := h s t a asked
        obtain ⟨_, ⟨new, rfl, rfl, all, rfl⟩, behind⟩ := ih _ t u values given
        refine ⟨_, ⟨a :: new, ?_⟩, Traceable.append_takes front behind⟩
        simpa using ⟨holds, all⟩
      · cases given
  intro s t values given
  obtain ⟨code, ⟨new, rfl, length, all, coded⟩, taken⟩ := go count #[] s t values given
  exact ⟨code, ⟨by simpa using length, by simpa using all, by simpa using coded⟩, taken⟩

end Exact

/-- What a step took it reads as the value that it gave, whatever is behind it. -/
def Local (step : Attempt ε σ α) : Prop := Exact step (Reads step)

theorem Exact.isLocal {step : Attempt ε σ α} {Code : List γ → α → Prop} (h : Exact step Code)
    (reads : ∀ code a, Code code a → Reads step code a) : Local step :=
  h.mono reads

end Attempt

end IndexMerge
