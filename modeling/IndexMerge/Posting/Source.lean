import IndexMerge.Attempt
import IndexMerge.Error

/-!
# Posting sources

Where postings come from, one at a time. A source may fail and be asked again. It has a measure
that every posting it gives makes smaller, so it cannot go on forever.
-/

namespace IndexMerge

/-- Something that gives postings until there are none left. -/
class PostingSource (σ : Type) where
  /-- The next posting, or none at the end. -/
  next : Attempt Error σ (Option Posting)
  /-- A bound on the number of postings left. -/
  left : σ → Nat
  /-- A posting that is given counts. -/
  left_next : ∀ {s s' : σ} {p : Posting}, next s = (.ok (some p), s') → left s' < left s

/-- A list gives its members in order. -/
instance : PostingSource (List Posting) where
  next
    | [] => (.ok none, [])
    | p :: rest => (.ok (some p), rest)
  left := List.length
  left_next := by
    intro s s' p h
    cases s with
    | nil => cases h
    | cons q rest => cases h; exact Nat.lt_succ_self _

/-- A list that fails at chosen calls, without giving up a posting there. -/
structure FaultyPostings where
  postings : List Posting
  /-- The number of calls so far. -/
  calls : Nat
  /-- Whether the call with this number, counted from zero, fails. -/
  fails : Nat → Bool

namespace FaultyPostings

/-- The next posting, unless this call fails. -/
def next : Attempt Error FaultyPostings (Option Posting) := fun s =>
  let counted := { s with calls := s.calls + 1 }
  if s.fails s.calls then (.error (.io "source" .deviceLost), counted)
  else match s.postings with
    | [] => (.ok none, counted)
    | p :: rest => (.ok (some p), { counted with postings := rest })

instance : PostingSource FaultyPostings where
  next := next
  left s := s.postings.length
  left_next := by
    intro s s' p h
    unfold next at h
    split at h
    · cases h
    · split at h
      · cases h
      · rename_i h'
        cases h
        simp [h']

end FaultyPostings

namespace PostingSource

variable {σ : Type} [PostingSource σ]

/-- All postings left, up to the first failure. -/
def collect : Attempt Error σ (List Posting) := fun s => go #[] s
where
  go (done : Array Posting) (s : σ) : Except Error (List Posting) × σ :=
    match _h : next s with
    | (.ok none, s) => (.ok done.toList, s)
    | (.ok (some p), s') => go (done.push p) s'
    | (.error e, s) => (.error e, s)
  termination_by left s
  decreasing_by exact left_next _h

/-- What a source keeps when it is asked, it keeps when it is collected. -/
theorem collect_source {P : σ → Prop} (step : ∀ s, P s → P (next s).2) (s : σ) (h : P s) :
    P (collect s).2 := by
  unfold collect
  generalize #[] = done
  have asked := step s h
  fun_induction collect.go done s <;> simp_all

end PostingSource

end IndexMerge
