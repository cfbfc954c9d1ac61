/-!
# Attempts

A step that reads and changes a state and may fail. What a step changed before it failed stays
changed, so the state is returned beside the result rather than inside it.
-/

namespace IndexMerge

/-- A step on a state of type `σ` that gives an `α` or fails with an `ε`. -/
abbrev Attempt (ε σ α : Type) : Type := ExceptT ε (StateM σ) α

namespace Attempt

variable {ε δ σ τ α β : Type}

/-- Takes a step on a part of the state. -/
def onPart (part : τ → σ) (put : σ → τ → τ) (step : Attempt ε σ α) : Attempt ε τ α := fun state =>
  let (result, changed) := step (part state)
  (result, put changed state)

/-- Renames the failures of a step. -/
def rename (f : ε → δ) (step : Attempt ε σ α) : Attempt δ σ α := fun state =>
  match step state with
  | (.ok value, state) => (.ok value, state)
  | (.error e, state) => (.error (f e), state)

/-- Takes a step `count` times and lists what it gives; the first failure ends it. -/
def times (step : Attempt ε σ α) (count : Nat) : Attempt ε σ (List α) :=
  go count #[]
where
  go : Nat → Array α → Attempt ε σ (List α)
    | 0, done, state => (.ok done.toList, state)
    | count + 1, done, state =>
      match step state with
      | (.ok value, state) => go count (done.push value) state
      | (.error e, state) => (.error e, state)

/-- What a step makes of a state, if it succeeds. -/
def outcome (step : Attempt ε σ Unit) (state : σ) : Except ε σ :=
  match step state with
  | (.ok (), state) => .ok state
  | (.error e, _) => .error e

theorem outcome_eq_ok {step : Attempt ε σ Unit} {s t : σ} :
    step.outcome s = .ok t ↔ step s = (.ok (), t) := by
  unfold outcome
  rcases step s with ⟨e | _, t'⟩
  · exact ⟨nofun, nofun⟩
  · constructor
    all_goals
      intro same
      cases same
      rfl

theorem outcome_eq_error {step : Attempt ε σ Unit} {s : σ} {e : ε} :
    step.outcome s = .error e ↔ (step s).1 = .error e := by
  unfold outcome
  rcases step s with ⟨e' | _, t'⟩
  · constructor
    all_goals
      intro same
      cases same
      rfl
  · exact ⟨nofun, nofun⟩

@[simp] theorem pure_apply (a : α) (s : σ) : (pure a : Attempt ε σ α) s = (.ok a, s) := rfl

@[simp] theorem throw_apply (e : ε) (s : σ) : (throw e : Attempt ε σ α) s = (.error e, s) := rfl

@[simp] theorem ofExcept_apply (result : Except ε α) (s : σ) :
    (MonadExcept.ofExcept result : Attempt ε σ α) s = (result, s) := by
  cases result <;> rfl

@[simp] theorem get_apply (s : σ) : (get : Attempt ε σ σ) s = (.ok s, s) := rfl

@[simp] theorem modify_apply (f : σ → σ) (s : σ) :
    (modify f : Attempt ε σ Unit) s = (.ok (), f s) := rfl

theorem bind_apply (step : Attempt ε σ α) (f : α → Attempt ε σ β) (s : σ) :
    (step >>= f) s = match step s with
      | (.ok a, s) => f a s
      | (.error e, s) => (.error e, s) := by
  show (match step s with
    | (r, s) => ExceptT.bindCont f r s : Except ε β × σ) = _
  rcases step s with ⟨r, s'⟩
  cases r <;> rfl

/-- Two steps succeed if the first one does and then the second one. -/
theorem bind_eq_ok {step : Attempt ε σ α} {f : α → Attempt ε σ β} {s u : σ} {b : β} :
    (step >>= f) s = (.ok b, u) ↔ ∃ a t, step s = (.ok a, t) ∧ f a t = (.ok b, u) := by
  rw [bind_apply]
  rcases step s with ⟨e | a, t⟩
  · constructor
    · intro h
      cases h
    · rintro ⟨_, _, same, _⟩
      cases same
  · constructor
    · exact fun h => ⟨a, t, rfl, h⟩
    · rintro ⟨_, _, same, h⟩
      cases same
      exact h

theorem map_apply (f : α → β) (step : Attempt ε σ α) (s : σ) :
    (f <$> step) s = match step s with
      | (.ok a, s) => (.ok (f a), s)
      | (.error e, s) => (.error e, s) :=
  bind_apply step (fun a => pure (f a)) s

end Attempt

end IndexMerge
