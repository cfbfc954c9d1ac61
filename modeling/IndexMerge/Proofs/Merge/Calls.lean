import IndexMerge.Merge.Loop

/-!
# Calls of a merge

A merge that was started is used by a sequence of calls: steps, which succeed or fail, and calls
that give it up. The states that it can reach are those behind all such sequences, so what every
call keeps holds of them all (`perform_keeps`). What steps keep holds of a merge to the end as well
(`rest_keeps`).
-/

namespace IndexMerge.Merge

variable {C S D : Type} [RunCursor C]

/-- Counting a term changes the progress and the ledger only. -/
theorem count_eq (m : Merge C S) (merged : MergedTerm) (pointer : BitPosition) (postings : Nat) :
    ∃ ledger, m.count merged pointer postings = { m with
      progress := ⟨m.progress.terms + 1, m.progress.postings + postings⟩
      schedule := { m.schedule with ledger } } := by
  unfold count
  dsimp only
  split
  · exact ⟨_, rfl⟩
  · exact ⟨_, rfl⟩

theorem heap_count (m : Merge C S) (merged : MergedTerm) (pointer : BitPosition) (postings : Nat) :
    (m.count merged pointer postings).schedule.heap = m.schedule.heap := by
  obtain ⟨ledger, counted⟩ := count_eq m merged pointer postings
  rw [counted]

theorem sink_count (m : Merge C S) (merged : MergedTerm) (pointer : BitPosition) (postings : Nat) :
    (m.count merged pointer postings).sink = m.sink := by
  obtain ⟨ledger, counted⟩ := count_eq m merged pointer postings
  rw [counted]

theorem progress_count (m : Merge C S) (merged : MergedTerm) (pointer : BitPosition)
    (postings : Nat) : (m.count merged pointer postings).progress =
      ⟨m.progress.terms + 1, m.progress.postings + postings⟩ := by
  obtain ⟨ledger, counted⟩ := count_eq m merged pointer postings
  rw [counted]

theorem terms_count (m : Merge C S) (merged : MergedTerm) (pointer : BitPosition)
    (postings : Nat) :
    (m.count merged pointer postings).progress.terms = m.progress.terms + 1 :=
  congrArg Progress.terms (progress_count m merged pointer postings)

variable [PostingSink S] [Dictionary D]

/-- A use of a merge that was started. -/
inductive Call where
  | step
  | abort
  deriving DecidableEq, Repr

/-- The merge and the dictionary after a call, whether or not it succeeds. -/
def call : Call → Merge C S × D → Merge C S × D
  | .step, (m, dictionary) => (m.step dictionary).2
  | .abort, (m, dictionary) => ((abort m).2, dictionary)

/-- The merge and the dictionary after a sequence of calls. -/
def perform (calls : List Call) (m : Merge C S) (dictionary : D) : Merge C S × D :=
  calls.foldl (fun state next => call next state) (m, dictionary)

@[simp] theorem perform_nil (m : Merge C S) (dictionary : D) :
    perform [] m dictionary = (m, dictionary) := rfl

@[simp] theorem perform_cons (next : Call) (calls : List Call) (m : Merge C S) (dictionary : D) :
    perform (next :: calls) m dictionary =
      perform calls (call next (m, dictionary)).1 (call next (m, dictionary)).2 := rfl

/-- What each call keeps, every sequence of calls keeps. -/
theorem perform_keeps {P : Merge C S → D → Prop}
    (step : ∀ m dictionary, P m dictionary → P (m.step dictionary).2.1 (m.step dictionary).2.2)
    (abort : ∀ m dictionary, P m dictionary → P (abort m).2 dictionary)
    (calls : List Call) (m : Merge C S) (dictionary : D) (h : P m dictionary) :
    P (perform calls m dictionary).1 (perform calls m dictionary).2 := by
  induction calls generalizing m dictionary with
  | nil => exact h
  | cons next calls ih =>
    rw [perform_cons]
    cases next with
    | step => exact ih _ _ (step m dictionary h)
    | abort => exact ih _ _ (abort m dictionary h)

theorem rest_of_step_eq_ok {m m' : Merge C S} {dictionary dictionary' : D} {merged : MergedTerm}
    (running : m.isDone = false) (stepped : m.step dictionary = (.ok merged, m', dictionary'))
    (terms : Array MergedTerm) :
    m.rest dictionary terms = m'.rest dictionary' (terms.push merged) := by
  rw [rest, running, if_neg Bool.false_ne_true]
  split <;> rename_i result <;> rw [stepped] at result <;> cases result
  rfl

theorem rest_of_step_eq_error {m m' : Merge C S} {dictionary dictionary' : D} {e : Error}
    (running : m.isDone = false) (failed : m.step dictionary = (.error e, m', dictionary'))
    (terms : Array MergedTerm) : m.rest dictionary terms = (.error e, terms, m', dictionary') := by
  rw [rest, running, if_neg Bool.false_ne_true]
  split <;> rename_i result <;> rw [failed] at result <;> cases result
  rfl

/-- Steps that succeed until all terms are written merge to the end. -/
theorem rest_of_steps {m : Merge C S} {dictionary : D} {count : Nat}
    (steps : ∀ k < count, let (m, dictionary) := perform (.replicate k .step) m dictionary
      m.isDone = false ∧ (m.step dictionary).1.isOk = true)
    (done : (perform (.replicate count .step) m dictionary).1.isDone = true)
    (terms : Array MergedTerm) : ∃ terms', m.rest dictionary terms =
      (.ok (), terms', perform (.replicate count .step) m dictionary) := by
  induction count generalizing m dictionary terms with
  | zero =>
    have done : m.isDone = true := done
    exact ⟨terms, by rw [rest, if_pos done]; rfl⟩
  | succ count ih =>
    obtain ⟨running, succeeds⟩ := steps 0 (Nat.succ_pos count)
    rcases stepped : m.step dictionary with ⟨e | merged, m', dictionary'⟩
    · have failed : (m.step dictionary).1.isOk = true := succeeds
      rw [stepped] at failed
      cases failed
    · have behind : ∀ k, perform (.replicate (k + 1) .step) m dictionary =
          perform (.replicate k .step) m' dictionary' := by
        intro k
        rw [List.replicate_succ, perform_cons]
        show perform _ (m.step dictionary).2.1 (m.step dictionary).2.2 = _
        rw [stepped]
      rw [rest_of_step_eq_ok running stepped, behind count]
      refine ih (fun k before => ?_) (behind count ▸ done) _
      rw [← behind k]
      exact steps (k + 1) (Nat.succ_lt_succ before)

/-- What a step keeps, merging to the end keeps, whether or not it succeeds. -/
theorem rest_keeps {P : Merge C S → D → Prop}
    (step : ∀ m dictionary, P m dictionary → P (m.step dictionary).2.1 (m.step dictionary).2.2)
    (m : Merge C S) (dictionary : D) (terms : Array MergedTerm) (h : P m dictionary) :
    P (m.rest dictionary terms).2.2.1 (m.rest dictionary terms).2.2.2 := by
  have stepped := step m dictionary h
  fun_induction rest m dictionary terms with
  | case1 => exact h
  | case2 m dictionary terms running merged m' dictionary' written ih =>
    rw [written] at stepped
    exact ih stepped (step m' dictionary' stepped)
  | case3 m dictionary terms running e m' dictionary' failed =>
    rwa [failed] at stepped

/-- What each step that succeeds keeps, merging to the end keeps if it succeeds. -/
theorem rest_keeps_of_ok {P : Merge C S → D → Prop}
    (step : ∀ m dictionary merged m' dictionary', P m dictionary →
      m.step dictionary = (.ok merged, m', dictionary') → P m' dictionary')
    {m m' : Merge C S} {dictionary dictionary' : D} {terms terms' : Array MergedTerm}
    (h : P m dictionary) (done : m.rest dictionary terms = (.ok (), terms', m', dictionary')) :
    P m' dictionary' := by
  fun_induction rest m dictionary terms with
  | case1 =>
    cases done
    exact h
  | case2 m dictionary terms running merged next dictionary₁ written ih =>
    exact ih (step m dictionary merged next dictionary₁ h written) done
  | case3 => cases done

end IndexMerge.Merge
