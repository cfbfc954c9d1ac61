import IndexMerge.Posting.Source
import IndexMerge.Statistics

/-!
# Run cursors

A cursor walks over the entries of a run. It stands before the first entry or on an entry, whose
postings it gives on demand. Two measures bound what it can still do: every advance uses up an
entry, and every posting that it gives uses up a posting.
-/

namespace IndexMerge

/-- A walk over the entries of a run. -/
class RunCursor (C : Type) where
  /-- The number of the run. -/
  runIndex : C → Nat
  /-- The term of the entry, empty before the first one. -/
  term : C → Term
  /-- The statistics of the entry. -/
  statistics : C → TermStatistics
  /-- Whether the cursor can advance. -/
  hasNext : C → Bool
  /-- Goes to the next entry. -/
  advance : Attempt Error C Unit
  /-- Gives up what the cursor holds. -/
  close : Attempt Error C Unit
  /-- Begins to give the postings of the entry. -/
  openPostings : C → C
  /-- The next posting of the entry, or none at the end. -/
  nextPosting : Attempt Error C (Option Posting)
  /-- A bound on the number of entries left. -/
  entriesLeft : C → Nat
  /-- A bound on the number of postings left. -/
  postingsLeft : C → Nat
  /-- An advance that succeeds counts. -/
  entriesLeft_advance : ∀ {c c' : C}, advance c = (.ok (), c') → entriesLeft c' < entriesLeft c
  /-- Beginning to give postings brings no entry back. -/
  entriesLeft_openPostings : ∀ c : C, entriesLeft (openPostings c) = entriesLeft c
  /-- Giving postings brings no entry back. -/
  entriesLeft_nextPosting : ∀ c : C, entriesLeft (nextPosting c).2 = entriesLeft c
  /-- A posting that is given counts. -/
  postingsLeft_nextPosting : ∀ {c c' : C} {p : Posting},
    nextPosting c = (.ok (some p), c') → postingsLeft c' < postingsLeft c

end IndexMerge
