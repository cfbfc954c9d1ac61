import IndexMerge.Posting.Source

/-!
# Counting postings

A source that counts what it gives, so that a list can be compared with the document frequency
that was announced for it.
-/

namespace IndexMerge

/-- A source, and the number of postings that it gave. -/
structure CountedPostings (σ : Type) where
  inner : σ
  count : Nat

namespace CountedPostings

variable {σ : Type} [PostingSource σ]

/-- The next posting, which is counted. -/
def next : Attempt Error (CountedPostings σ) (Option Posting) := fun s =>
  match PostingSource.next s.inner with
  | (.ok (some p), inner) => (.ok (some p), ⟨inner, s.count + 1⟩)
  | (.ok none, inner) => (.ok none, ⟨inner, s.count⟩)
  | (.error e, inner) => (.error e, ⟨inner, s.count⟩)

instance : PostingSource (CountedPostings σ) where
  next := next
  left s := PostingSource.left s.inner
  left_next := by
    intro s s' p h
    unfold next at h
    split at h
    · rename_i given
      cases h
      exact PostingSource.left_next given
    · cases h
    · cases h

theorem inner_next (s : CountedPostings σ) :
    (next s).2.inner = (PostingSource.next s.inner).2 := by
  unfold next
  split <;> rename_i given <;> rw [given]

end CountedPostings

end IndexMerge
