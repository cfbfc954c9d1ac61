import IndexMerge.Merge.Lease
import IndexMerge.Proofs.Posting.Yield
import IndexMerge.Run.InMemory

/-!
# Walks over a run

A cursor goes over entries if it can be advanced to each of them in turn, shows its term and its
statistics, gives its postings to the end, and can be closed behind the last (`Lease.Walks`). A
cursor over a run in memory goes over the entries of the run (`walks_memory`).
-/

namespace IndexMerge

open PostingSource

variable {C : Type} [RunCursor C]

namespace Lease

/-- What a lease answers its cursor answers. -/
theorem next_eq {lease lease' : Lease C} {result : Except Error (Option Posting)}
    (asked : next lease = (result, lease')) :
    RunCursor.nextPosting lease.cursor = (result, lease'.cursor) := by
  obtain ⟨answer, rfl⟩ := Prod.mk.inj asked
  exact Prod.ext answer rfl

/-- The cursor of a run goes over these entries without a failure. -/
def Walks (run : Nat) : Lease C → List RunEntry → Prop
  | lease, [] => lease.runIndex = run ∧ RunCursor.hasNext lease.cursor = false ∧
      (RunCursor.close lease.cursor).1 = .ok ()
  | lease, e :: entries => lease.runIndex = run ∧ RunCursor.hasNext lease.cursor = true ∧
      ∃ cursor, RunCursor.advance lease.cursor = (.ok (), cursor) ∧
        RunCursor.runIndex cursor = run ∧ RunCursor.term cursor = e.term ∧
        RunCursor.statistics cursor = e.statistics ∧
        ∃ after, Yields (openPostings { lease with cursor }) e.postings after ∧
          Walks run after entries

/-- The cursor of a run stands on an entry and goes over those behind it. -/
structure Stands (run : Nat) (lease : Lease C) (e : RunEntry) (entries : List RunEntry) :
    Prop where
  runIndex_eq : lease.runIndex = run
  term_eq : lease.term = e.term
  statistics_eq : RunCursor.statistics lease.cursor = e.statistics
  yields : ∃ after, Yields lease.openPostings e.postings after ∧ Walks run after entries

theorem Walks.runIndex_eq {run : Nat} {lease : Lease C} {entries : List RunEntry}
    (h : lease.Walks run entries) : lease.runIndex = run := by
  cases entries with
  | nil => exact h.1
  | cons e entries => exact h.1

theorem Walks.hasNext_eq {run : Nat} {lease : Lease C} {entries : List RunEntry}
    (h : lease.Walks run entries) :
    RunCursor.hasNext lease.cursor = !entries.isEmpty := by
  cases entries with
  | nil => exact h.2.1
  | cons e entries => exact h.2.1

/-- An advance brings a cursor that goes over entries to the first of them. -/
theorem Walks.advance {run : Nat} {lease : Lease C} {e : RunEntry} {entries : List RunEntry}
    (h : lease.Walks run (e :: entries)) :
    ∃ cursor, RunCursor.advance lease.cursor = (.ok (), cursor) ∧
      Stands run { lease with cursor } e entries := by
  obtain ⟨-, -, cursor, advanced, runIndex, term, statistics, yields⟩ := h
  exact ⟨cursor, advanced, runIndex, term, statistics, yields⟩

end Lease

namespace MemoryCursor

theorem yields_memory (position : Nat) (c : MemoryCursor) :
    Yields (⟨position, c⟩ : Lease MemoryCursor) c.postings
      ⟨position, { c with postings := [] }⟩ := by
  obtain ⟨index, current, ahead, postings, isClosed⟩ := c
  induction postings with
  | nil => rfl
  | cons p postings ih => exact ⟨_, rfl, ih⟩

/-- An open cursor over a run in memory goes over the entries ahead. -/
theorem walks_memory (position : Nat) (c : MemoryCursor) (isOpen : c.isClosed = false) :
    (⟨position, c⟩ : Lease MemoryCursor).Walks c.index c.ahead := by
  obtain ⟨index, current, ahead, postings, isClosed⟩ := c
  obtain rfl : isClosed = false := isOpen
  induction ahead generalizing current postings with
  | nil => exact ⟨rfl, rfl, rfl⟩
  | cons e ahead ih =>
    refine ⟨rfl, rfl, ⟨index, some e, ahead, [], false⟩, rfl, rfl, rfl, rfl, _, ?_, ih (some e) []⟩
    exact yields_memory position ⟨index, some e, ahead, e.postings, false⟩

end MemoryCursor

end IndexMerge
