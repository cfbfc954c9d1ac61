import IndexMerge.Run.Basic
import IndexMerge.Run.Cursor

/-!
# Cursors over runs in memory

A cursor that walks over the entries of a run as they are. What it gives is right because the run
was built by its rules, so nothing is checked again.
-/

namespace IndexMerge

/-- A cursor over the entries of a run: the one it stands on and those ahead. -/
structure MemoryCursor where
  index : Nat
  current : Option RunEntry
  ahead : List RunEntry
  /-- The postings of the current entry that are still to be given. -/
  postings : List Posting
  isClosed : Bool
  deriving DecidableEq, Repr, Inhabited

namespace MemoryCursor

/-- A cursor before the first entry of a run. -/
def start (run : Run) : MemoryCursor := ⟨run.index, none, run.entries.toList, [], false⟩

/-- The term of the current entry. -/
def term (c : MemoryCursor) : Term := (c.current.map (·.term)).getD []

/-- The statistics of the current entry. -/
def statistics (c : MemoryCursor) : TermStatistics :=
  (c.current.map (·.statistics)).getD .empty

/-- Whether there are entries ahead of a cursor that is open. -/
def hasNext (c : MemoryCursor) : Bool := !c.isClosed && !c.ahead.isEmpty

/-- Goes to the next entry. -/
def advance : Attempt Error MemoryCursor Unit := fun c =>
  if c.isClosed then (.error (.operation .advanceClosed), c)
  else match c.ahead with
    | [] => (.error (.operation (.advancePastEnd c.index)), c)
    | e :: ahead => (.ok (), { c with current := some e, ahead, postings := [] })

/-- Closes the cursor. -/
def close : Attempt Error MemoryCursor Unit := fun c => (.ok (), { c with isClosed := true })

/-- Begins with the first posting of the current entry. -/
def openPostings (c : MemoryCursor) : MemoryCursor :=
  { c with postings := (c.current.map (·.postings)).getD [] }

/-- The next posting of the current entry. -/
def nextPosting : Attempt Error MemoryCursor (Option Posting) := fun c =>
  match c.postings with
  | [] => (.ok none, c)
  | p :: postings => (.ok (some p), { c with postings })

instance : RunCursor MemoryCursor where
  runIndex := index
  term := term
  statistics := statistics
  hasNext := hasNext
  advance := advance
  close := close
  openPostings := openPostings
  nextPosting := nextPosting
  entriesLeft c := c.ahead.length
  postingsLeft c := c.postings.length
  entriesLeft_advance := by
    intro c c' h
    unfold advance at h
    split at h
    · cases h
    · split at h
      · cases h
      · rename_i ahead
        cases h
        simp [ahead]
  entriesLeft_openPostings _ := rfl
  entriesLeft_nextPosting := by
    intro c
    unfold nextPosting
    split <;> rfl
  postingsLeft_nextPosting := by
    intro c c' p h
    unfold nextPosting at h
    split at h
    · cases h
    · rename_i postings
      cases h
      simp [postings]

end MemoryCursor

end IndexMerge
